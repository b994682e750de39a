import Mathlib.Algebra.BigOperators.Group.Finset.Basic
import Mathlib.Data.Fintype.BigOperators
import Mathlib.Data.List.Induction
import Mathlib.Tactic.Abel

/-!
# Runs of a machine

A machine is given by what one move does to its state, `move : ι → σ → σ`; a run
is a list of moves. A machine some of whose moves may be blocked is given by a
partial step, and a blocked move leaves the state as it is (`stutter`): the list
of moves is then a schedule, naming whose turn it is, and a party that cannot
move loses its turn. The states reached are the same either way.

The rules here are the ones every invariant argument uses: a fact kept by each
move is kept by a run (`run_invariant`), a fact kept by the moves that meet a condition is
kept by a run all of whose moves meet it (`Along.invariant`) and may be used to show that
they meet another (`Along.mono_of`), and a machine that follows another move by move follows it
over runs (`run_map`), or does so in the runs of allowed moves (`Along.simulates`). Where the
state is that of many parties, `total_update` says what a move of one of them does to a total.
-/

namespace Ossim.Machine

variable {σ τ ι κ β : Type*}

/-- The state after the moves of a list, the first one first. -/
def run (move : ι → σ → σ) : List ι → σ → σ
  | [], s => s
  | a :: as, s => run move as (move a s)

/-- A partial step as a move: a step that is not possible leaves the state alone. -/
def stutter (step : ι → σ → Option σ) (a : ι) (s : σ) : σ := (step a s).getD s

/-- Every move of the run is made in a state where `P` allows it. -/
def Along (move : ι → σ → σ) (P : σ → ι → Prop) : List ι → σ → Prop
  | [], _ => True
  | a :: as, s => P s a ∧ Along move P as (move a s)

instance Along.decidable (move : ι → σ → σ) (P : σ → ι → Prop) [∀ s a, Decidable (P s a)] :
    (as : List ι) → (s : σ) → Decidable (Along move P as s)
  | [], _ => .isTrue trivial
  | a :: as, s =>
    have := Along.decidable move P as (move a s)
    inferInstanceAs (Decidable (P s a ∧ Along move P as (move a s)))

/-- `I` holds at every point of the run, its two ends included. -/
def Throughout (move : ι → σ → σ) (I : σ → Prop) : List ι → σ → Prop
  | [], s => I s
  | a :: as, s => I s ∧ Throughout move I as (move a s)

/-- What the moves of a run put out, one after another. -/
def output (move : ι → σ → σ) (out : ι → σ → List β) : List ι → σ → List β
  | [], _ => []
  | a :: as, s => out a s ++ output move out as (move a s)

variable {move : ι → σ → σ}

@[simp] theorem run_nil (s : σ) : run move [] s = s := rfl

@[simp] theorem run_cons (a : ι) (as : List ι) (s : σ) :
    run move (a :: as) s = run move as (move a s) := rfl

theorem run_append (as bs : List ι) (s : σ) :
    run move (as ++ bs) s = run move bs (run move as s) := by
  induction as generalizing s with
  | nil => rfl
  | cons a as ih => exact ih (move a s)

@[simp] theorem run_concat (as : List ι) (a : ι) (s : σ) :
    run move (as ++ [a]) s = move a (run move as s) := run_append as [a] s

/-- What each move keeps, a run keeps. -/
theorem run_invariant {I : σ → Prop} (hI : ∀ a s, I s → I (move a s)) (as : List ι) {s : σ}
    (hs : I s) :
    I (run move as s) := by
  induction as generalizing s with
  | nil => exact hs
  | cons a as ih => exact ih (hI a s hs)

/-- What the allowed moves keep, a run of allowed moves keeps. -/
theorem Along.invariant {P : σ → ι → Prop} {I : σ → Prop} (hI : ∀ a s, I s → P s a → I (move a s))
    {as : List ι} {s : σ} (h : Along move P as s) (hs : I s) : I (run move as s) := by
  induction as generalizing s with
  | nil => exact hs
  | cons a as ih => exact ih h.2 (hI a s hs h.1)

theorem along_append {P : σ → ι → Prop} (as bs : List ι) (s : σ) :
    Along move P (as ++ bs) s ↔ Along move P as s ∧ Along move P bs (run move as s) := by
  induction as generalizing s with
  | nil => simp [Along]
  | cons a as ih => simp [Along, ih, and_assoc]

/-- Where an invariant holds that the allowed moves keep, it may be used to weaken what
allows them. -/
theorem Along.mono_of {P Q : σ → ι → Prop} {I : σ → Prop} (hI : ∀ a s, I s → P s a → I (move a s))
    (hPQ : ∀ a s, I s → P s a → Q s a) {as : List ι} {s : σ} (h : Along move P as s) (hs : I s) :
    Along move Q as s := by
  induction as generalizing s with
  | nil => trivial
  | cons a as ih => exact ⟨hPQ a s hs h.1, ih h.2 (hI a s hs h.1)⟩

theorem Along.mono {P Q : σ → ι → Prop} (hPQ : ∀ a s, P s a → Q s a) {as : List ι} {s : σ}
    (h : Along move P as s) : Along move Q as s :=
  h.mono_of (I := fun _ => True) (fun _ _ _ _ => trivial) (fun a s _ => hPQ a s) trivial

/-- What a run has had (`U`) it keeps (`K`) from then on just when every move keeps what there is
before it. It is enough that a move which does so also keeps what was kept. -/
theorem kept_iff_along {Q : σ → ι → Prop} {I : σ → Prop} {U K : σ → β → Prop}
    (hI : ∀ a s, I s → I (move a s)) (hU : ∀ s b, U s b → K s b)
    (hQ : ∀ a s, I s → (Q s a ↔ ∀ b, U s b → K (move a s) b))
    (hK : ∀ a s, I s → Q s a → ∀ b, K s b → K (move a s) b) {as : List ι} {s : σ} (hs : I s) :
    (∀ pre mid, pre ++ mid <+: as → ∀ b, U (run move pre s) b → K (run move (pre ++ mid) s) b) ↔
      Along move Q as s := by
  constructor
  · intro h
    induction as generalizing s with
    | nil => trivial
    | cons a as ih =>
      refine ⟨(hQ a s hs).mpr fun b hb => h [] [a] ⟨as, rfl⟩ b hb, ih (hI a s hs) ?_⟩
      intro pre mid hpre b hb
      exact h (a :: pre) mid (List.cons_prefix_cons.mpr ⟨rfl, hpre⟩) b hb
  · rintro h pre mid ⟨post, rfl⟩ b hb
    obtain ⟨-, hmid⟩ := (along_append pre mid s).mp ((along_append _ post s).mp h).1
    rw [run_append]
    have hkept := hmid.invariant (I := fun s => I s ∧ K s b)
      (fun a s hs hq => ⟨hI a s hs.1, hK a s hs.1 hq b hs.2⟩)
      ⟨run_invariant hI pre hs, hU _ b hb⟩
    exact hkept.2

/-- A run of which some move is not allowed splits at the first such move. -/
theorem exists_of_not_along {P : σ → ι → Prop} {as : List ι} {s : σ} (h : ¬ Along move P as s) :
    ∃ pre a post, as = pre ++ a :: post ∧ Along move P pre s ∧ ¬ P (run move pre s) a := by
  induction as generalizing s with
  | nil => exact absurd trivial h
  | cons a as ih =>
    by_cases hP : P s a
    · obtain ⟨pre, b, post, rfl, hpre, hb⟩ := ih fun hal => h ⟨hP, hal⟩
      exact ⟨a :: pre, b, post, rfl, ⟨hP, hpre⟩, hb⟩
    · exact ⟨[], a, as, rfl, trivial, hP⟩

theorem Throughout.first {I : σ → Prop} {as : List ι} {s : σ} (h : Throughout move I as s) :
    I s := by
  cases as with
  | nil => exact h
  | cons a as => exact h.1

/-- What holds throughout a run holds at the end of it. -/
theorem Throughout.last {I : σ → Prop} {as : List ι} {s : σ} (h : Throughout move I as s) :
    I (run move as s) := by
  induction as generalizing s with
  | nil => exact h
  | cons a as ih => exact ih h.2

@[simp] theorem output_concat {out : ι → σ → List β} (as : List ι) (a : ι) (s : σ) :
    output move out (as ++ [a]) s = output move out as s ++ out a (run move as s) := by
  induction as generalizing s with
  | nil => simp [output]
  | cons b as ih => simp [output, ih]

theorem output_append {out : ι → σ → List β} (as bs : List ι) (s : σ) :
    output move out (as ++ bs) s = output move out as s ++ output move out bs (run move as s) := by
  induction as generalizing s with
  | nil => rfl
  | cons a as ih => rw [List.cons_append, output, output, ih, List.append_assoc, run_cons]

/-- One machine follows another: if each move commutes with `f`, so do runs. -/
theorem run_map {move' : κ → τ → τ} {f : σ → τ} {g : ι → κ}
    (hf : ∀ a s, f (move a s) = move' (g a) (f s)) (as : List ι) (s : σ) :
    f (run move as s) = run move' (as.map g) (f s) := by
  induction as generalizing s with
  | nil => rfl
  | cons a as ih => rw [run_cons, List.map_cons, run_cons, ih, hf]

/-- One machine follows another if each of its moves is some moves of the other, or none: then a
run of the one is the run of the other that these moves make up. -/
theorem run_output {move' : κ → τ → τ} {f : σ → τ} {g : ι → σ → List κ}
    (hf : ∀ a s, f (move a s) = run move' (g a s) (f s)) (as : List ι) (s : σ) :
    f (run move as s) = run move' (output move g as s) (f s) := by
  induction as generalizing s with
  | nil => rfl
  | cons a as ih => rw [run_cons, output, run_append, ih, hf]

/-- … and what those moves put out is what the other puts out. -/
theorem output_output {move' : κ → τ → τ} {f : σ → τ} {g : ι → σ → List κ} {out' : κ → τ → List β}
    (hf : ∀ a s, f (move a s) = run move' (g a s) (f s)) (as : List ι) (s : σ) :
    output move (fun a s => output move' out' (g a s) (f s)) as s =
      output move' out' (output move g as s) (f s) := by
  induction as generalizing s with
  | nil => rfl
  | cons a as ih => rw [output, ih, output, output_append, hf]

/-- … and each of them is allowed, if those of one move are. -/
theorem along_output {move' : κ → τ → τ} {f : σ → τ} {g : ι → σ → List κ} {P : τ → κ → Prop}
    {I : σ → Prop} (hf : ∀ a s, f (move a s) = run move' (g a s) (f s))
    (hI : ∀ a s, I s → I (move a s)) (hP : ∀ a s, I s → Along move' P (g a s) (f s))
    (as : List ι) {s : σ} (hs : I s) : Along move' P (output move g as s) (f s) := by
  induction as generalizing s with
  | nil => trivial
  | cons a as ih => exact (along_append _ _ _).mpr ⟨hP a s hs, hf a s ▸ ih (hI a s hs)⟩

/-- A relation to another machine that each allowed move keeps, where the other one makes some moves
for it or none, a run of allowed moves keeps. -/
theorem Along.simulates {P : σ → ι → Prop} {R : σ → τ → Prop} {move' : κ → τ → τ}
    {g : ι → σ → List κ} (hR : ∀ a s t, P s a → R s t → R (move a s) (run move' (g a s) t))
    {as : List ι} {s : σ} {t : τ} (h : Along move P as s) (hst : R s t) :
    R (run move as s) (run move' (output move g as s) t) := by
  induction as generalizing s t with
  | nil => exact hst
  | cons a as ih =>
    rw [output, run_append]
    exact ih h.2 (hR a s t h.1 hst)

/-- … and if each move puts out the same, so do runs. -/
theorem output_map {move' : κ → τ → τ} {f : σ → τ} {g : ι → κ} {out : ι → σ → List β}
    {out' : κ → τ → List β}
    (hf : ∀ a s, f (move a s) = move' (g a) (f s)) (ho : ∀ a s, out a s = out' (g a) (f s))
    (as : List ι) (s : σ) : output move out as s = output move' out' (as.map g) (f s) := by
  induction as generalizing s with
  | nil => rfl
  | cons a as ih => rw [output, List.map_cons, output, ih, ho, hf]

/-! ### Partial steps -/

variable {step : ι → σ → Option σ}

theorem stutter_of_some {a : ι} {s s' : σ} (h : step a s = some s') : stutter step a s = s' := by
  rw [stutter, h, Option.getD_some]

theorem stutter_of_none {a : ι} {s : σ} (h : step a s = none) : stutter step a s = s := by
  rw [stutter, h, Option.getD_none]

/-- A move of a partial step either is one of its steps or changes nothing. -/
theorem stutter_cases (step : ι → σ → Option σ) (a : ι) (s : σ) :
    step a s = some (stutter step a s) ∨ stutter step a s = s := by
  cases h : step a s with
  | none => exact .inr (stutter_of_none h)
  | some s' => exact .inl (by rw [stutter_of_some h])

/-- What each step keeps, a run keeps. -/
theorem stutter_invariant {I : σ → Prop} (hI : ∀ a s s', I s → step a s = some s' → I s')
    (as : List ι) {s : σ} (hs : I s) : I (run (stutter step) as s) := by
  apply run_invariant _ as hs
  intro a s hs
  rcases stutter_cases step a s with h | h
  · exact hI a s _ hs h
  · rw [h]; exact hs

/-! ### Parties -/

/-- When one party of many changes from `g i` to `x`, a total over the parties changes by
that party's share. -/
theorem total_update [Fintype ι] [DecidableEq ι] {M : Type*} [AddCommMonoid M] (f : σ → M)
    (g : ι → σ) (i : ι) (x : σ) :
    ∑ j, f (Function.update g i x j) + f (g i) = ∑ j, f (g j) + f x := by
  rw [← Finset.add_sum_erase Finset.univ (fun j => f (Function.update g i x j)) (Finset.mem_univ i),
    ← Finset.add_sum_erase Finset.univ (fun j => f (g j)) (Finset.mem_univ i)]
  have hrest : ∑ j ∈ Finset.univ.erase i, f (Function.update g i x j) =
      ∑ j ∈ Finset.univ.erase i, f (g j) :=
    Finset.sum_congr rfl fun j hj => by rw [Function.update_of_ne (Finset.ne_of_mem_erase hj)]
  simp only [Function.update_self, hrest]
  abel

end Ossim.Machine
