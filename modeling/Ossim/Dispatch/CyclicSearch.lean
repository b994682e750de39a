import Mathlib.Logic.Function.Iterate
import Mathlib.Data.Fin.Basic

/-!
# Searching a ring

The places `0,..n` stand on a ring; a search starts at a cursor and looks at one
place after another, going from the last place back to the first. The order in
which it looks is the distance from the cursor (`dist`), so what it finds is the
nearest place with the property sought (`search_eq_some_iff`), and a search that
goes all the way round misses no place (`search_eq_none_iff`).
-/

namespace Ossim.Dispatch

variable {n : ℕ}

/-- The place after `c` on the ring. -/
def next (c : Fin n) : Fin n := ⟨(c + 1) % n, Nat.mod_lt _ c.pos⟩

/-- How many steps from `c` to `i`, going forward. -/
def dist (c i : Fin n) : ℕ := if c ≤ i then i - c else n - c + i

/-- The first of the `k` places from `c` on that has property `p`. -/
def search (p : Fin n → Bool) : ℕ → Fin n → Option (Fin n)
  | 0, _ => none
  | k + 1, c => if p c then some c else search p k (next c)

theorem next_val (c : Fin n) : (next c : ℕ) = if (c : ℕ) + 1 = n then 0 else (c : ℕ) + 1 := by
  have hc := c.isLt
  simp only [next]
  split_ifs with h
  · rw [h, Nat.mod_self]
  · exact Nat.mod_eq_of_lt (by omega)

theorem dist_lt (c i : Fin n) : dist c i < n := by
  have hi := i.isLt
  simp only [dist, Fin.le_def]
  split_ifs <;> omega

@[simp] theorem dist_self (c : Fin n) : dist c c = 0 := by simp [dist]

/-- A step forward brings every other place one nearer. -/
theorem dist_next {c i : Fin n} (h : i ≠ c) : dist c i = dist (next c) i + 1 := by
  have hc := c.isLt
  have hi := i.isLt
  have hne : (i : ℕ) ≠ c := fun he => h (Fin.ext he)
  simp only [dist, Fin.le_def, next_val]
  split_ifs <;> omega

theorem dist_eq_zero_iff {c i : Fin n} : dist c i = 0 ↔ i = c := by
  constructor
  · intro h
    by_contra hne
    rw [dist_next hne] at h
    exact Nat.succ_ne_zero _ h
  · rintro rfl
    exact dist_self i

/-- Distances from one cursor tell the places apart. -/
theorem dist_inj {c i j : Fin n} (h : dist c i = dist c j) : i = j := by
  have hi := i.isLt
  have hj := j.isLt
  apply Fin.ext
  simp only [dist, Fin.le_def] at h
  split_ifs at h <;> omega

/-- What lies before the place after `j` on the way round from `c`: going on from a
place `j` met before `i` shortens the way to `i` past it. -/
theorem dist_next_of_lt {c i j : Fin n} (h : dist c j < dist c i) :
    dist (next j) i + dist c j + 1 = dist c i := by
  have hc := c.isLt
  have hi := i.isLt
  have hj := j.isLt
  simp only [dist, Fin.le_def, next_val] at h ⊢
  split_ifs at h ⊢ <;> omega

/-- **The nearest place is found**: `i` has the property, lies within the `k` places
looked at, and every place nearer lacks the property. -/
theorem search_eq_some_iff {p : Fin n → Bool} {k : ℕ} {c i : Fin n} :
    search p k c = some i ↔ p i = true ∧ dist c i < k ∧ ∀ j, dist c j < dist c i → p j = false := by
  induction k generalizing c with
  | zero => simp [search]
  | succ k ih =>
    by_cases hc : p c = true
    · simp only [search, hc, if_true, Option.some.injEq]
      constructor
      · rintro rfl
        exact ⟨hc, by simp, fun j hj => by simp at hj⟩
      · rintro ⟨-, -, hmin⟩
        by_contra hne
        have hlt : dist c c < dist c i := by
          rw [dist_self, Nat.pos_iff_ne_zero, Ne, dist_eq_zero_iff]
          exact fun he => hne he.symm
        rw [hmin c hlt] at hc
        cases hc
    · rw [search, if_neg hc, ih]
      have hcf : p c = false := by simpa using hc
      have hne : p i = true → i ≠ c := by
        rintro hi rfl
        exact hc hi
      constructor
      · rintro ⟨hi, hk, hmin⟩
        refine ⟨hi, by rw [dist_next (hne hi)]; omega, ?_⟩
        intro j hj
        by_cases hjc : j = c
        · rw [hjc]; exact hcf
        · rw [dist_next hjc, dist_next (hne hi)] at hj
          exact hmin j (by omega)
      · rintro ⟨hi, hk, hmin⟩
        rw [dist_next (hne hi)] at hk hmin
        refine ⟨hi, by omega, ?_⟩
        intro j hj
        by_cases hjc : j = c
        · rw [hjc]; exact hcf
        · exact hmin j (by rw [dist_next hjc]; omega)

theorem search_eq_none_iff {p : Fin n → Bool} {k : ℕ} {c : Fin n} :
    search p k c = none ↔ ∀ i, dist c i < k → p i = false := by
  induction k generalizing c with
  | zero => simp [search]
  | succ k ih =>
    by_cases hc : p c = true
    · simp only [search, hc, if_true, reduceCtorEq, false_iff, not_forall]
      exact ⟨c, by simp, by simp [hc]⟩
    · rw [search, if_neg hc, ih]
      constructor
      · intro h i hi
        by_cases hic : i = c
        · rw [hic]; simpa using hc
        · rw [dist_next hic] at hi
          exact h i (by omega)
      · intro h i hi
        by_cases hic : i = c
        · rw [hic]; simpa using hc
        · exact h i (by rw [dist_next hic]; omega)

/-- **Nothing is missed**: a search all the way round fails only if no place has the
property. -/
theorem search_all_eq_none_iff {p : Fin n → Bool} {c : Fin n} :
    search p n c = none ↔ ∀ i, p i = false := by
  rw [search_eq_none_iff]
  exact ⟨fun h i => h i (dist_lt c i), fun h i _ => h i⟩

/-- A search all the way round finds the least place with the property just when the
places with it do not lie on both sides of the cursor. -/
theorem search_least_iff {p : Fin n → Bool} {c i : Fin n} (h : search p n c = some i) :
    (∀ j < i, p j = false) ↔ (∀ j, p j = true → c ≤ j) ∨ (∀ j, p j = true → j < c) := by
  obtain ⟨hi, -, hmin⟩ := search_eq_some_iff.mp h
  have hin := i.isLt
  constructor
  · intro hleast
    by_cases hci : c ≤ i
    · left
      intro j hj
      by_contra hjc
      have hji : j < i := by
        simp only [Fin.le_def, Fin.lt_def] at hjc hci ⊢
        omega
      rw [hleast j hji] at hj
      cases hj
    · right
      intro j hj
      by_contra hjc
      -- a place from the cursor on would have been met before `i`
      have hlt : dist c j < dist c i := by
        have hjn := j.isLt
        have hcn := c.isLt
        simp only [Fin.le_def, Fin.lt_def, not_le, not_lt] at hci hjc
        simp only [dist, Fin.le_def, if_pos hjc, if_neg (Nat.not_le.mpr hci)]
        omega
      rw [hmin j hlt] at hj
      cases hj
  · rintro hside j hji
    by_contra hj
    rw [Bool.not_eq_false] at hj
    have hnot : ¬ dist c j < dist c i := by
      intro hlt
      rw [hmin j hlt] at hj
      cases hj
    apply hnot
    have hcn := c.isLt
    rw [Fin.lt_def] at hji
    rcases hside with hside | hside <;> have hcj := hside j hj <;> have hci := hside i hi <;>
      simp only [Fin.le_def, Fin.lt_def] at hcj hci <;> simp only [dist, Fin.le_def] <;>
        split_ifs <;> omega

theorem iterate_next_val (k : ℕ) (c : Fin n) : ((next^[k] c : Fin n) : ℕ) = (c + k) % n := by
  induction k generalizing c with
  | zero => simp [Nat.mod_eq_of_lt c.isLt]
  | succ k ih =>
    rw [Function.iterate_succ_apply, ih]
    simp only [next, Nat.mod_add_mod]
    congr 1
    omega

/-- All the way round is back where one started. -/
theorem iterate_next_self (c : Fin n) : next^[n] c = c := by
  apply Fin.ext
  rw [iterate_next_val, Nat.add_mod_right, Nat.mod_eq_of_lt c.isLt]

end Ossim.Dispatch
