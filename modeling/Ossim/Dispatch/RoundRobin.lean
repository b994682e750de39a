import Ossim.Dispatch.CyclicSearch
import Ossim.Machine.Run
import Mathlib.Algebra.BigOperators.Group.Finset.Basic
import Mathlib.Algebra.BigOperators.Fin
import Mathlib.Algebra.Order.BigOperators.Group.Finset
import Mathlib.Data.Fintype.BigOperators
import Mathlib.Tactic.Abel

/-!
# Round robin with budgets

A dispatcher keeps `n` classes on a ring, each with a queue and with a credit. A
turn serves the nearest class, from the cursor on, that has someone waiting and
credit left; if there is none, every credit is first set back to the class's
quota and the nearest class with someone waiting is served. Serving takes the
front of the queue, one unit of credit, and moves the cursor past the class.

What is proved of it, for any number of classes and any positive quotas:

* a turn is fruitless only when nobody waits, and then changes nothing but the
  credits (`pick_cases`);
* a class's credit is its quota less what it was served since the credits were
  last set, and credits are set back only when every class with someone waiting
  has used up its quota (`credit_pick`, `credit_eq_zero_of_refills`);
* nobody is lost or duplicated by a turn (`backlog_pick`, `backlog_insert`);
* **nobody is passed over for ever**: from the time `k` others are ahead in its
  class's queue, an entry is served within `(k + 1) (∑ quota − quota q + n)` turns
  (`taken_length_lt`), whoever joins in the meantime.
-/

namespace Ossim.Dispatch

open Machine

namespace RoundRobin

/-- The state of the dispatcher. -/
structure State (n : ℕ) (α : Type*) where
  /-- Who waits in each class. -/
  queue : Fin n → List α
  /-- How often each class may still be served. -/
  credit : Fin n → ℕ
  /-- Where the next turn starts looking. -/
  cursor : Fin n

variable {n : ℕ} {α : Type*}

/-- Someone waits in class `i`. -/
def waiting (s : State n α) (i : Fin n) : Bool := !(s.queue i).isEmpty

/-- Someone waits in class `i`, which has credit left. -/
def eligible (s : State n α) (i : Fin n) : Bool := waiting s i && decide (0 < s.credit i)

/-- Every credit is set back to the quota. -/
def refill (quota : Fin n → ℕ) (s : State n α) : State n α := { s with credit := quota }

/-- Class `i` is served. -/
def serve (s : State n α) (i : Fin n) : State n α where
  queue := Function.update s.queue i (s.queue i).tail
  credit := Function.update s.credit i (s.credit i - 1)
  cursor := next i

/-- A turn: the class served, if any, and the state after. -/
def pick (quota : Fin n → ℕ) (s : State n α) : Option (Fin n) × State n α :=
  match search (eligible s) n s.cursor with
  | some i => (some i, serve s i)
  | none =>
    match search (waiting s) n s.cursor with
    | some i => (some i, serve (refill quota s) i)
    | none => (none, refill quota s)

/-- `x` joins class `i`, if there is room for it. -/
def insert (cap : ℕ) (i : Fin n) (x : α) (s : State n α) : State n α :=
  if (s.queue i).length < cap then { s with queue := Function.update s.queue i (s.queue i ++ [x]) }
  else s

/-- No class is eligible, so that a turn sets the credits back. -/
def Refills (s : State n α) : Prop := ∀ i, eligible s i = false

instance (s : State n α) : Decidable (Refills s) :=
  inferInstanceAs (Decidable (∀ i, eligible s i = false))

/-- The state in which a turn makes its choice, the credits set back if they have to be. -/
def turn (quota : Fin n → ℕ) (s : State n α) : State n α := if Refills s then refill quota s else s

@[simp] theorem turn_queue (quota : Fin n → ℕ) (s : State n α) : (turn quota s).queue = s.queue := by
  unfold turn; split_ifs <;> rfl

theorem turn_of_refills {quota : Fin n → ℕ} {s : State n α} (h : Refills s) :
    turn quota s = refill quota s :=
  if_pos h

theorem turn_of_not_refills {quota : Fin n → ℕ} {s : State n α} (h : ¬ Refills s) :
    turn quota s = s := if_neg h

theorem eligible_iff {s : State n α} {i : Fin n} :
    eligible s i = true ↔ s.queue i ≠ [] ∧ 0 < s.credit i := by
  simp [eligible, waiting]

/-- Credits are set back only when every class with someone waiting is out of credit. -/
theorem credit_eq_zero_of_refills {s : State n α} (h : Refills s) {i : Fin n} (hi : s.queue i ≠ []) :
    s.credit i = 0 := by
  by_contra hne
  have := h i
  rw [eligible_iff.mpr ⟨hi, Nat.pos_of_ne_zero hne⟩] at this
  cases this

section Turn

variable {quota : Fin n → ℕ} (hquota : ∀ i, 0 < quota i)

include hquota

/-- With positive quotas the two searches of a turn are one search of the state in
which the choice is made. -/
theorem pick_eq (s : State n α) :
    pick quota s = match search (eligible (turn quota s)) n s.cursor with
      | some i => (some i, serve (turn quota s) i)
      | none => (none, turn quota s) := by
  by_cases h : Refills s
  · have hel : eligible (refill quota s) = waiting s := by
      funext i
      simp [eligible, waiting, refill, hquota i]
    rw [turn_of_refills h, hel, pick, search_all_eq_none_iff.mpr h]
  · rw [turn_of_not_refills h, pick]
    cases hs : search (eligible s) n s.cursor with
    | some i => rfl
    | none => exact absurd (search_all_eq_none_iff.mp hs) h

/-- **What a turn does**: it serves the nearest class eligible when the choice is
made, or nobody waits and nothing changes but the credits. -/
theorem pick_cases (s : State n α) :
    (∃ i, pick quota s = (some i, serve (turn quota s) i) ∧
      search (eligible (turn quota s)) n s.cursor = some i) ∨
      (pick quota s = (none, turn quota s) ∧ ∀ i, s.queue i = []) := by
  rw [pick_eq hquota]
  cases hs : search (eligible (turn quota s)) n s.cursor with
  | some i => exact Or.inl ⟨i, rfl, rfl⟩
  | none =>
    refine Or.inr ⟨rfl, ?_⟩
    intro i
    rw [search_all_eq_none_iff] at hs
    by_cases h : Refills s
    · by_contra hi
      have hel : eligible (refill quota s) i = true := eligible_iff.mpr ⟨hi, hquota i⟩
      have hnot := hs i
      rw [turn_of_refills h, hel] at hnot
      cases hnot
    · rw [turn_of_not_refills h] at hs
      exact absurd hs h

/-- The class served has someone waiting and credit left when the choice is made. -/
theorem eligible_of_pick {s s' : State n α} {i : Fin n} (h : pick quota s = (some i, s')) :
    s' = serve (turn quota s) i ∧ s.queue i ≠ [] ∧ 0 < (turn quota s).credit i := by
  rcases pick_cases hquota s with ⟨j, hj, hsearch⟩ | ⟨hn, -⟩
  · rw [hj, Prod.mk.injEq, Option.some.injEq] at h
    obtain ⟨rfl, rfl⟩ := h
    have hel := eligible_iff.mp (search_eq_some_iff.mp hsearch).1
    rw [turn_queue] at hel
    exact ⟨rfl, hel⟩
  · rw [hn] at h
    cases h

/-- **The law of the credits**: what is left to a class after a turn, and what the
turn took from it, make up what it had when the choice was made. -/
theorem credit_pick (s : State n α) (j : Fin n) :
    (pick quota s).2.credit j + (if (pick quota s).1 = some j then 1 else 0) =
      (turn quota s).credit j := by
  rcases pick_cases hquota s with ⟨i, hi, hsearch⟩ | ⟨hn, -⟩
  · have hpos := (eligible_iff.mp (search_eq_some_iff.mp hsearch).1).2
    rw [hi]
    by_cases hij : i = j
    · subst hij
      simp only [serve, Function.update_self, if_true]
      omega
    · simp [serve, Function.update_of_ne (Ne.symm hij), hij]
  · simp [hn]

/-- A turn never leaves a class more than its quota. -/
theorem credit_pick_le {s : State n α} (hs : ∀ j, s.credit j ≤ quota j) (j : Fin n) :
    (pick quota s).2.credit j ≤ quota j := by
  have h := credit_pick hquota s j
  have hle : (turn quota s).credit j ≤ quota j := by
    by_cases hr : Refills s
    · rw [turn_of_refills hr]; exact le_rfl
    · rw [turn_of_not_refills hr]; exact hs j
  omega

end Turn

/-! ### Nobody is lost -/

/-- Everyone who waits, whatever the class. -/
def backlog (s : State n α) : Multiset α := ∑ i, (s.queue i : Multiset α)

/-- Taking the queue of one class out of the backlog and putting another in its place. -/
theorem backlog_update (s : State n α) (i : Fin n) (l : List α) {c : Fin n → ℕ} {k : Fin n} :
    backlog ⟨Function.update s.queue i l, c, k⟩ + (s.queue i : Multiset α) =
      backlog s + (l : Multiset α) :=
  total_update (fun l : List α => (l : Multiset α)) s.queue i l

theorem backlog_insert {cap : ℕ} {i : Fin n} {x : α} {s : State n α} (h : (s.queue i).length < cap) :
    backlog (insert cap i x s) = x ::ₘ backlog s := by
  rw [insert, if_pos h]
  apply add_right_cancel (b := (s.queue i : Multiset α))
  rw [backlog_update s i (s.queue i ++ [x]), ← Multiset.coe_add, ← Multiset.singleton_add]
  simp only [Multiset.coe_singleton]
  abel

/-- The one a turn takes is the front of the queue of the class served, and nobody
else leaves. -/
theorem backlog_pick {quota : Fin n → ℕ} (hquota : ∀ i, 0 < quota i) {s s' : State n α} {i : Fin n}
    (h : pick quota s = (some i, s')) :
    ∃ x, (s.queue i).head? = some x ∧ backlog s = x ::ₘ backlog s' := by
  obtain ⟨rfl, hne, -⟩ := eligible_of_pick hquota h
  obtain ⟨x, l, hl⟩ := List.exists_cons_of_ne_nil hne
  refine ⟨x, by rw [hl]; rfl, ?_⟩
  have hb := backlog_update (turn quota s) i l (c := (serve (turn quota s) i).credit) (k := next i)
  simp only [turn_queue, hl] at hb
  have hbt : backlog (turn quota s) = backlog s := by simp [backlog]
  rw [hbt, ← Multiset.cons_coe, ← Multiset.singleton_add, ← add_assoc] at hb
  have := add_right_cancel hb
  rw [← this, add_comm, Multiset.singleton_add]
  simp [serve, hl]

/-- A turn that serves nobody leaves everyone where they are. -/
theorem backlog_pick_none {quota : Fin n → ℕ} (hquota : ∀ i, 0 < quota i) {s s' : State n α}
    (h : pick quota s = (none, s')) : backlog s' = backlog s := by
  rcases pick_cases hquota s with ⟨i, hi, -⟩ | ⟨hn, -⟩
  · rw [hi] at h; cases h
  · rw [hn, Prod.mk.injEq] at h
    obtain ⟨-, rfl⟩ := h
    simp [backlog]

/-! ### Nobody is passed over for ever -/

/-- What can happen to a dispatcher: someone joins a class, a turn is taken, or someone is
turned away. -/
inductive Op (n : ℕ) (α : Type*) where
  /-- `x` joins class `i`. -/
  | insert (i : Fin n) (x : α)
  /-- A turn. -/
  | pick
  /-- Nothing. -/
  | skip

/-- What happens, with room for `cap` in each class. -/
def move (quota : Fin n → ℕ) (cap : ℕ) : Op n α → State n α → State n α
  | .insert i x, s => insert cap i x s
  | .pick, s => (pick quota s).2
  | .skip, s => s

/-- Whom a turn takes: the front of the queue of the class served. -/
def picked (quota : Fin n → ℕ) (s : State n α) : Option α :=
  (pick quota s).1.bind fun i => (s.queue i).head?

/-- Whom the turns of a run take. -/
def taken (quota : Fin n → ℕ) : Op n α → State n α → List (Option α)
  | .pick, s => [picked quota s]
  | .insert _ _, _ | .skip, _ => []

/-- Which classes the turns of a run serve. -/
def served (quota : Fin n → ℕ) : Op n α → State n α → List (Option (Fin n))
  | .pick, s => [(pick quota s).1]
  | .insert _ _, _ | .skip, _ => []

theorem length_served {quota : Fin n → ℕ} {cap : ℕ} (ops : List (Op n α)) (s : State n α) :
    (output (move quota cap) (served quota) ops s).length =
      (output (move quota cap) (taken quota) ops s).length := by
  induction ops generalizing s with
  | nil => rfl
  | cons op ops ih => cases op <;> simp [output, served, taken, ih]

/-- Someone waits in class `q` whenever a turn is taken. -/
def Busy (q : Fin n) (s : State n α) : Op n α → Prop
  | .pick => s.queue q ≠ []
  | .insert _ _ | .skip => True

/-- How many turns may still serve other classes before class `q` is served: while `q` has
credit, as many as there are places before it on the ring; once it has none, as many more
as the other classes have credits left. -/
def wait (q : Fin n) (s : State n α) : ℕ :=
  if 0 < s.credit q then dist s.cursor q else (∑ i ∈ Finset.univ.erase q, s.credit i) + (n - 1)

/-- The most that `wait` can be. -/
def maxWait (quota : Fin n → ℕ) (q : Fin n) : ℕ := (∑ i ∈ Finset.univ.erase q, quota i) + (n - 1)

theorem wait_le {quota : Fin n → ℕ} {s : State n α} (hs : ∀ j, s.credit j ≤ quota j) (q : Fin n) :
    wait q s ≤ maxWait quota q := by
  unfold wait maxWait
  split_ifs
  · have := dist_lt s.cursor q
    omega
  · exact Nat.add_le_add_right (Finset.sum_le_sum fun j _ => hs j) _

@[simp] theorem wait_insert (cap : ℕ) (i : Fin n) (x : α) (s : State n α) (q : Fin n) :
    wait q (insert cap i x s) = wait q s := by
  unfold insert; split_ifs <;> rfl

section Bypass

variable {quota : Fin n → ℕ} (hquota : ∀ i, 0 < quota i)

include hquota

/-- The step of the argument: a turn that serves another class while someone waits in
class `q` brings the turn of `q` nearer. -/
theorem wait_pick_lt {s s' : State n α} {q i : Fin n} (hq : s.queue q ≠ [])
    (h : pick quota s = (some i, s')) (hne : i ≠ q) : wait q s' < wait q s := by
  have hsearch : search (eligible (turn quota s)) n s.cursor = some i := by
    rcases pick_cases hquota s with ⟨j, hj, hsearch⟩ | ⟨hn, -⟩
    · rw [hj, Prod.mk.injEq, Option.some.injEq] at h
      rw [← h.1]; exact hsearch
    · rw [hn] at h; cases h
  obtain ⟨rfl, hi, hpos⟩ := eligible_of_pick hquota h
  obtain ⟨-, -, hmin⟩ := search_eq_some_iff.mp hsearch
  have hqc : (serve (turn quota s) i).credit q = (turn quota s).credit q := by
    simp [serve, Function.update_of_ne (Ne.symm hne)]
  by_cases hcq : 0 < (turn quota s).credit q
  · -- class `q` is eligible: the one served lies before it on the ring
    have hel : eligible (turn quota s) q = true := eligible_iff.mpr ⟨by rwa [turn_queue], hcq⟩
    have hlt : dist s.cursor i < dist s.cursor q := by
      by_contra hnot
      rcases Nat.lt_or_ge (dist s.cursor q) (dist s.cursor i) with hlt | hge
      · rw [hmin q hlt] at hel; cases hel
      · exact hne (dist_inj (c := s.cursor) (by omega))
    have hstep : dist (next i) q + dist s.cursor i + 1 = dist s.cursor q := dist_next_of_lt hlt
    have hwait : wait q (serve (turn quota s) i) = dist (next i) q := by
      rw [wait, hqc, if_pos hcq]; rfl
    rw [hwait]
    have hbound := dist_lt s.cursor q
    unfold wait
    split_ifs <;> omega
  · -- class `q` is out of credit: the credits of the others go down
    have hr : ¬ Refills s := fun hr => hcq (by rw [turn_of_refills hr]; exact hquota q)
    rw [turn_of_not_refills hr] at hqc hcq hpos ⊢
    rw [wait, wait, hqc, if_neg hcq, if_neg hcq, Nat.add_lt_add_iff_right]
    refine Finset.sum_lt_sum (fun j _ => ?_) ⟨i, Finset.mem_erase.mpr ⟨hne, Finset.mem_univ i⟩, ?_⟩
    · by_cases hji : j = i
      · subst hji; simp [serve]
      · simp [serve, Function.update_of_ne hji]
    · simp only [serve, Function.update_self]
      omega

/-- While someone waits in some class, no turn is fruitless. -/
theorem exists_pick {s : State n α} {q : Fin n} (hq : s.queue q ≠ []) :
    ∃ i s', pick quota s = (some i, s') := by
  rcases pick_cases hquota s with ⟨i, hi, -⟩ | ⟨-, hempty⟩
  · exact ⟨i, _, hi⟩
  · exact absurd (hempty q) hq

/-- The step of the bound for an entry with `k` others ahead of it: a turn that does not
take it either brings the turn of its class nearer, or takes one of those ahead. -/
theorem wait_pick_entry {s : State n α} {q : Fin n} {k : ℕ} {x : α} (hs : ∀ j, s.credit j ≤ quota j)
    (hk : (s.queue q)[k]? = some x) (hx : picked quota s ≠ some x) :
    ∃ k', ((pick quota s).2.queue q)[k']? = some x ∧
      k' * (maxWait quota q + 1) + wait q (pick quota s).2 <
        k * (maxWait quota q + 1) + wait q s := by
  have hq : s.queue q ≠ [] := by
    intro h
    rw [h] at hk
    cases hk
  obtain ⟨i, s', hpick⟩ := exists_pick hquota hq
  have hcredit : ∀ j, s'.credit j ≤ quota j := by
    intro j
    have := credit_pick_le hquota hs j
    rwa [hpick] at this
  obtain ⟨hs', -, -⟩ := eligible_of_pick hquota hpick
  by_cases hiq : i = q
  · subst hiq
    cases k with
    | zero =>
      refine absurd ?_ hx
      rw [picked, hpick, ← hk, ← List.head?_eq_getElem?]
      rfl
    | succ k =>
      refine ⟨k, ?_, ?_⟩
      · rw [hpick, hs', serve]
        simp only [turn_queue, Function.update_self]
        rwa [List.getElem?_tail]
      · rw [hpick, Nat.succ_mul]
        show _ + wait i s' < _
        have := wait_le hcredit i
        omega
  · refine ⟨k, ?_, ?_⟩
    · rw [hpick, hs', serve]
      simp only [turn_queue]
      rwa [Function.update_of_ne (Ne.symm hiq)]
    · rw [hpick]
      exact Nat.add_lt_add_left (wait_pick_lt hquota hq hpick hiq) _

/-- **Nobody is passed over for ever**: a run whose turns do not take `x`, which has `k`
others ahead of it in class `q`, has fewer turns than `(k + 1) (maxWait + 1)`. -/
theorem taken_length_lt {cap : ℕ} {q : Fin n} {x : α} (ops : List (Op n α)) {s : State n α} {k : ℕ}
    (hs : ∀ j, s.credit j ≤ quota j) (hk : (s.queue q)[k]? = some x)
    (hx : some x ∉ output (move quota cap) (taken quota) ops s) :
    (output (move quota cap) (taken quota) ops s).length < (k + 1) * (maxWait quota q + 1) := by
  suffices h : (output (move quota cap) (taken quota) ops s).length ≤
      k * (maxWait quota q + 1) + wait q s by
    have := wait_le hs q
    rw [Nat.succ_mul]
    omega
  induction ops generalizing s k with
  | nil => simp [output]
  | cons op ops ih =>
    simp only [output, List.mem_append, not_or] at hx
    cases op with
    | insert i y =>
      have hk' : ((insert cap i y s).queue q)[k]? = some x := by
        unfold insert
        split_ifs
        · by_cases hqi : q = i
          · subst hqi
            simp only [Function.update_self]
            rw [List.getElem?_append_left (List.getElem?_eq_some_iff.mp hk).1]
            exact hk
          · simpa [Function.update_of_ne hqi] using hk
        · exact hk
      have hs' : ∀ j, (insert cap i y s).credit j ≤ quota j := by
        unfold insert; split_ifs <;> exact hs
      have := ih hs' hk' hx.2
      rw [wait_insert] at this
      simpa [output, taken, move] using this
    | pick =>
      have hpx : picked quota s ≠ some x := fun h => hx.1 (by simp [taken, h])
      obtain ⟨k', hk', hlt⟩ := wait_pick_entry hquota hs hk hpx
      have := ih (credit_pick_le hquota hs) hk' hx.2
      simp only [output, taken, move, List.length_append, List.length_singleton]
      omega
    | skip => exact ih hs hk hx.2

/-- A class with someone waiting at every turn is served within `maxWait + 1` turns. -/
theorem served_length_le {cap : ℕ} {q : Fin n} (ops : List (Op n α)) {s : State n α}
    (hs : ∀ j, s.credit j ≤ quota j) (hbusy : Along (move quota cap) (Busy q) ops s)
    (hq : some q ∉ output (move quota cap) (served quota) ops s) :
    (output (move quota cap) (served quota) ops s).length ≤ maxWait quota q := by
  suffices h : (output (move quota cap) (served quota) ops s).length ≤ wait q s from
    h.trans (wait_le hs q)
  induction ops generalizing s with
  | nil => exact Nat.zero_le _
  | cons op ops ih =>
    simp only [output, List.mem_append, not_or] at hq
    cases op with
    | insert i y =>
      have hs' : ∀ j, (insert cap i y s).credit j ≤ quota j := by
        unfold insert; split_ifs <;> exact hs
      have := ih hs' hbusy.2 hq.2
      rw [wait_insert] at this
      simpa [output, served, move] using this
    | pick =>
      obtain ⟨i, s', hpick⟩ := exists_pick hquota hbusy.1
      have hne : i ≠ q := fun he => hq.1 (by simp [served, hpick, he])
      have hlt := wait_pick_lt hquota hbusy.1 hpick hne
      have hrest := ih (credit_pick_le hquota hs) hbusy.2 hq.2
      simp only [output, served, move, hpick, List.length_append, List.length_singleton] at hrest ⊢
      omega
    | skip => exact ih hs hbusy.2 hq.2

end Bypass

end RoundRobin

end Ossim.Dispatch
