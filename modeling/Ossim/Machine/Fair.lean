import Mathlib.Tactic.Common
import Ossim.Machine.Run

/-!
# What must come in a fair run

An endless run takes one move after another, and is fair to a move if it takes it again and again.
To show that something must come it is enough to say, in every state before, which move helps:
that move brings a measure down, and any other move does too, or changes neither the measure
nor the move that helps (`Helps.eventually`).
-/

namespace Ossim.Machine

variable {σ ι : Type*}

/-- The states of an endless run. -/
def path (move : ι → σ → σ) (as : ℕ → ι) (s : σ) : ℕ → σ
  | 0 => s
  | n + 1 => move (as n) (path move as s n)

/-- The move is made again and again. -/
def Recurs (as : ℕ → ι) (a : ι) : Prop := ∀ n, ∃ m, n ≤ m ∧ as m = a

/-- The moves of a list, one after another, over and over. -/
def rounds (l : List ι) (hl : 0 < l.length) (n : ℕ) : ι := l.get ⟨n % l.length, Nat.mod_lt n hl⟩

/-- In every state where `I` holds and `Q` is still to come, `help` names a move that brings `μ`
down, and no move keeps it from doing so. -/
structure Helps (move : ι → σ → σ) (I Q : σ → Prop) (μ : σ → ℕ) (help : σ → ι) : Prop where
  /-- Every move keeps `I`. -/
  keep : ∀ a s, I s → I (move a s)
  /-- A move brings `μ` down, or it is not the one that helps and leaves things as they are. -/
  next : ∀ a s, I s → ¬ Q s → ¬ Q (move a s) →
    μ (move a s) < μ s ∨ (a ≠ help s ∧ μ (move a s) = μ s ∧ help (move a s) = help s)

variable {move : ι → σ → σ} {as : ℕ → ι} {s : σ}

/-- The states of an endless run are those of the runs it begins with. -/
theorem path_eq_run (move : ι → σ → σ) (as : ℕ → ι) (s : σ) (n : ℕ) :
    path move as s n = run move ((List.range n).map as) s := by
  induction n with
  | zero => rfl
  | succ n ih => rw [List.range_succ, List.map_append, List.map_singleton, run_concat, ← ih, path]

/-- A condition on every move of an endless run is one on those it begins with. -/
theorem along_of_path {P : σ → ι → Prop} (h : ∀ n, P (path move as s n) (as n)) (n : ℕ) :
    Along move P ((List.range n).map as) s := by
  induction n with
  | zero => trivial
  | succ n ih =>
    rw [List.range_succ, List.map_append, List.map_singleton, along_append, ← path_eq_run]
    exact ⟨ih, h n, trivial⟩

theorem path_add (move : ι → σ → σ) (as : ℕ → ι) (s : σ) (n k : ℕ) :
    path move as s (n + k) = path move (fun m => as (n + m)) (path move as s n) k := by
  induction k with
  | zero => rfl
  | succ k ih => rw [Nat.add_succ, path, ih, path]

theorem Recurs.shift {a : ι} (h : Recurs as a) (n : ℕ) : Recurs (fun m => as (n + m)) a := by
  intro k
  obtain ⟨m, hle, rfl⟩ := h (n + k)
  exact ⟨m - n, by omega, congrArg as (by omega)⟩

theorem recurs_rounds {l : List ι} (hl : 0 < l.length) {a : ι} (ha : a ∈ l) :
    Recurs (rounds l hl) a := by
  obtain ⟨k, rfl⟩ := List.get_of_mem ha
  intro n
  refine ⟨l.length * n + k, ?_, ?_⟩
  · have hle := Nat.le_mul_of_pos_left n hl
    omega
  · have hmod : (l.length * n + k) % l.length = k := by
      rw [Nat.mul_add_mod, Nat.mod_eq_of_lt k.isLt]
    exact congrArg l.get (Fin.ext hmod)

/-- What every move keeps holds all along. -/
theorem path_invariant {I : σ → Prop} (hI : ∀ a s, I s → I (move a s)) (hs : I s) (n : ℕ) :
    I (path move as s n) := by
  induction n with
  | zero => exact hs
  | succ n ih => exact hI (as n) _ ih

section
variable {I Q : σ → Prop} {μ : σ → ℕ} {help : σ → ι}

/-- Until `Q` comes, `μ` goes down, or the move that helps is the same and is not made. -/
theorem Helps.stays (h : Helps move I Q μ help) (hs : I s) (hQ : ∀ n, ¬ Q (path move as s n))
    (n : ℕ) :
    (∃ k, μ (path move as s k) < μ s) ∨
      (μ (path move as s n) = μ s ∧ help (path move as s n) = help s ∧ ∀ m < n, as m ≠ help s) := by
  induction n with
  | zero => exact .inr ⟨rfl, rfl, nofun⟩
  | succ n ih =>
    rcases ih with hk | ⟨hμ, hhelp, hnot⟩
    · exact .inl hk
    · have hI : I (path move as s n) := path_invariant h.keep hs n
      rcases h.next (as n) _ hI (hQ n) (hQ (n + 1)) with hlt | ⟨hne, hμ', hhelp'⟩
      · exact .inl ⟨n + 1, hlt.trans_eq hμ⟩
      · refine .inr ⟨hμ'.trans hμ, hhelp'.trans hhelp, ?_⟩
        intro m hm
        rcases Nat.lt_succ_iff_lt_or_eq.mp hm with hm | rfl
        · exact hnot m hm
        · rwa [← hhelp]

/-- **What must come.** A run that is fair to the moves that help comes to `Q`. -/
theorem Helps.eventually (h : Helps move I Q μ help)
    (hfair : ∀ s, I s → ¬ Q s → Recurs as (help s)) (hs : I s) : ∃ n, Q (path move as s n) := by
  induction hμ : μ s using Nat.strong_induction_on generalizing s as with
  | _ k ih =>
    by_contra hno
    have hQ : ∀ n, ¬ Q (path move as s n) := fun n hn => hno ⟨n, hn⟩
    obtain ⟨m, -, hm⟩ := hfair s hs (hQ 0) 0
    have hdown : ∃ n, μ (path move as s n) < μ s := by
      rcases h.stays hs hQ (m + 1) with hk | ⟨-, -, hnot⟩
      · exact hk
      · exact absurd hm (hnot m (Nat.lt_succ_self m))
    obtain ⟨n, hn⟩ := hdown
    -- from there on the measure is smaller, and the run as fair
    obtain ⟨j, hj⟩ := ih _ (hμ ▸ hn) (fun s hs hQ => (hfair s hs hQ).shift n)
      (path_invariant h.keep hs n) rfl
    exact hQ (n + j) (by rwa [path_add])

/-- It comes after any point of the run. -/
theorem Helps.eventually_after (h : Helps move I Q μ help)
    (hfair : ∀ s, I s → ¬ Q s → Recurs as (help s)) {n : ℕ} (hs : I (path move as s n)) :
    ∃ m, n ≤ m ∧ Q (path move as s m) := by
  obtain ⟨k, hk⟩ := h.eventually (fun s hs hQ => (hfair s hs hQ).shift n) hs
  exact ⟨n + k, Nat.le_add_right n k, by rwa [path_add]⟩

end

end Ossim.Machine
