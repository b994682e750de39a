import Mathlib.Algebra.GroupWithZero.Nat
import Mathlib.Order.Interval.Finset.Nat
import Mathlib.Order.Interval.Set.LinearOrder
import Mathlib.Tactic.Tauto

/-!
# Extents

Stretches of a line, each from a place up to another, and lists of them: a free list, say, or
what several owners have. What counts is the set of points that a list covers. Carving a piece
out of one of the extents leaves the list with the other points if no two of the extents share
one (`cover_carve_of_apart`), and otherwise with at least those (`cover_carve`). Extents of numbers
that share no point have together no more of them than there are before the last one ends
(`sum_length_le`).
-/

namespace Ossim.Machine

/-- From `lo` up to and not including `hi`. -/
structure Extent (α : Type*) where
  /-- Where it starts. -/
  lo : α
  /-- Where it ends. -/
  hi : α

namespace Extent

variable {α : Type*}

section Preorder

variable [Preorder α]

/-- The points of an extent. -/
def points (e : Extent α) : Set α := Set.Ico e.lo e.hi

/-- The points of a list of extents. -/
def cover (es : List (Extent α)) : Set α := {a | ∃ e ∈ es, a ∈ e.points}

/-- No two extents of the list share a point. -/
def Apart (es : List (Extent α)) : Prop := es.Pairwise fun e e' => ∀ a ∈ e.points, a ∉ e'.points

variable {e t : Extent α} {pre left post : List (Extent α)} {a : α}

@[simp] theorem mem_points : a ∈ e.points ↔ e.lo ≤ a ∧ a < e.hi := Iff.rfl

@[simp] theorem mem_cover {es : List (Extent α)} : a ∈ cover es ↔ ∃ e ∈ es, a ∈ e.points := Iff.rfl

@[simp] theorem cover_nil : cover ([] : List (Extent α)) = ∅ := by
  ext a
  simp

@[simp] theorem cover_cons (e : Extent α) (es : List (Extent α)) :
    cover (e :: es) = e.points ∪ cover es := by
  ext a
  simp

@[simp] theorem cover_append (es es' : List (Extent α)) :
    cover (es ++ es') = cover es ∪ cover es' := by
  ext a
  simp [or_and_right, exists_or]

/-- What is left of an extent and what is carved out of it are still there together. -/
theorem cover_carve (h : cover left ∪ t.points = e.points) :
    cover (pre ++ left ++ post) ∪ t.points = cover (pre ++ e :: post) := by
  rw [cover_append, cover_append, cover_append, cover_cons, ← h]
  ext a
  simp only [Set.mem_union]
  tauto

/-- … and if the extents share no point, what is carved out is gone from the list. -/
theorem cover_carve_of_apart (h : cover left ∪ t.points = e.points)
    (hleft : ∀ a ∈ cover left, a ∉ t.points) (hapart : Apart (pre ++ e :: post)) :
    cover (pre ++ left ++ post) = cover (pre ++ e :: post) \ t.points := by
  obtain ⟨-, hpost, hpre⟩ := List.pairwise_append.mp hapart
  have hgone : ∀ a ∈ cover (pre ++ left ++ post), a ∉ t.points := by
    intro a ha hat
    have hae : a ∈ e.points := h ▸ Or.inr hat
    rw [cover_append, cover_append] at ha
    rcases ha with (⟨e', he', ha⟩ | ha) | ⟨e', he', ha⟩
    · exact hpre e' he' e List.mem_cons_self a ha hae
    · exact hleft a ha hat
    · exact List.rel_of_pairwise_cons hpost he' a hae ha
  ext a
  rw [← cover_carve h]
  constructor
  · intro ha
    exact ⟨.inl ha, hgone a ha⟩
  · rintro ⟨ha | ha, hat⟩
    · exact ha
    · exact absurd ha hat

/-- Extents that share no point share none when one of them is replaced by parts of it. -/
theorem Apart.carve (hapart : Apart (pre ++ e :: post)) (hleft : Apart left)
    (hsub : ∀ e' ∈ left, e'.points ⊆ e.points) : Apart (pre ++ left ++ post) := by
  obtain ⟨hpre, hpost, hcross⟩ := List.pairwise_append.mp hapart
  obtain ⟨he, hpost⟩ := List.pairwise_cons.mp hpost
  refine List.pairwise_append.mpr ⟨List.pairwise_append.mpr ⟨hpre, hleft, ?_⟩, hpost, ?_⟩
  · intro e₁ he₁ e₂ he₂
    exact fun a ha ha' => hcross e₁ he₁ e List.mem_cons_self a ha (hsub e₂ he₂ ha')
  · intro e₁ he₁ e₂ he₂
    rcases List.mem_append.mp he₁ with h₁ | h₁
    · exact hcross e₁ h₁ e₂ (List.mem_cons_of_mem _ he₂)
    · exact fun a ha => he e₂ he₂ a (hsub e₁ h₁ ha)

end Preorder

/-! ### Cutting an extent in two -/

variable [LinearOrder α] {lo mid hi : α}

theorem points_cut (hlo : lo ≤ mid) (hhi : mid ≤ hi) :
    (⟨mid, hi⟩ : Extent α).points ∪ (⟨lo, mid⟩ : Extent α).points =
      (⟨lo, hi⟩ : Extent α).points := by
  rw [Set.union_comm]
  exact Set.Ico_union_Ico_eq_Ico hlo hhi

/-- An extent that ends before another one starts shares no point with it. -/
theorem not_mem_points_of_hi_le {e e' : Extent α} (h : e.hi ≤ e'.lo) {a : α} (ha : a ∈ e.points) :
    a ∉ e'.points :=
  fun ha' => absurd (ha.2.trans_le h) (not_lt.mpr ha'.1)

theorem not_mem_cut {a : α} (ha : a ∈ (⟨mid, hi⟩ : Extent α).points) :
    a ∉ (⟨lo, mid⟩ : Extent α).points := by
  intro ha'
  have hle : (⟨lo, mid⟩ : Extent α).hi ≤ (⟨mid, hi⟩ : Extent α).lo := le_rfl
  exact not_mem_points_of_hi_le hle ha' ha

/-! ### How many points -/

/-- How many points an extent of numbers has. -/
def length (e : Extent ℕ) : ℕ := e.hi - e.lo

variable {es : List (Extent ℕ)}

/-- Extents that share no point cover as many as they have. -/
theorem exists_card_eq (h : Apart es) :
    ∃ s : Finset ℕ, (s : Set ℕ) = cover es ∧ s.card = (es.map length).sum := by
  induction es with
  | nil => exact ⟨∅, by simp, rfl⟩
  | cons e es ih =>
    obtain ⟨he, hes⟩ := List.pairwise_cons.mp h
    obtain ⟨s, hs, hcard⟩ := ih hes
    have hdisj : Disjoint (Finset.Ico e.lo e.hi) s := by
      rw [Finset.disjoint_left]
      intro a ha has
      obtain ⟨e', he', ha'⟩ : a ∈ cover es := hs ▸ Finset.mem_coe.mpr has
      exact he e' he' a (Finset.mem_Ico.mp ha) ha'
    refine ⟨Finset.Ico e.lo e.hi ∪ s, ?_, ?_⟩
    · rw [Finset.coe_union, Finset.coe_Ico, hs, cover_cons, points]
    · rw [Finset.card_union_of_disjoint hdisj, Nat.card_Ico, hcard, List.map_cons, List.sum_cons,
        length]

/-- There are no more points than numbers before the end. -/
theorem sum_length_le (h : Apart es) {n : ℕ} (hn : ∀ e ∈ es, e.hi ≤ n) :
    (es.map length).sum ≤ n := by
  obtain ⟨s, hs, hcard⟩ := exists_card_eq h
  rw [← hcard, ← Finset.card_range n]
  apply Finset.card_le_card
  intro a ha
  obtain ⟨e, he, -, hlt⟩ : a ∈ cover es := hs ▸ Finset.mem_coe.mpr ha
  exact Finset.mem_range.mpr (hlt.trans_le (hn e he))

end Extent

end Ossim.Machine
