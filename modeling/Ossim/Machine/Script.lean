import Ossim.Machine.Run

/-!
# Keeping to a script

One party of a machine has something to do that takes many of its moves, with moves of
others in between. At each point it is known what it has still to put out (`ahead`) and how
many of its own moves that takes (`left`). If each move takes its output off the front of
what is ahead, or is the last one, then whatever the order of the moves the party puts out
what was ahead of it at the start, in order; and all of it once it has made its moves
(`Scripted.output`).
-/

namespace Ossim.Machine

variable {σ ι β : Type*}

/-- How many moves of a run are of a kind. -/
def count (move : ι → σ → σ) (mine : ι → σ → Prop) [∀ a s, Decidable (mine a s)] :
    List ι → σ → ℕ
  | [], _ => 0
  | a :: as, s => (if mine a s then 1 else 0) + count move mine as (move a s)

/-- A party keeps to its script: `live` says that it is at work. -/
structure Scripted (move : ι → σ → σ) (out : ι → σ → List β) (mine : ι → σ → Prop)
    [∀ a s, Decidable (mine a s)] (live : σ → Prop) (ahead : σ → List β) (left : σ → ℕ) :
    Prop where
  /-- There is a move to make. -/
  left_pos : ∀ s, live s → 0 < left s
  /-- A move of another changes nothing. -/
  other : ∀ a s, live s → ¬ mine a s →
    out a s = [] ∧ live (move a s) ∧ ahead (move a s) = ahead s ∧ left (move a s) = left s
  /-- A move of its own is the last one, or the next. -/
  own : ∀ a s, live s → mine a s →
    out a s = ahead s ∨
      (out a s ++ ahead (move a s) = ahead s ∧ live (move a s) ∧ left (move a s) + 1 = left s)

variable {move : ι → σ → σ} {out : ι → σ → List β} {mine : ι → σ → Prop}
  [∀ a s, Decidable (mine a s)] {live : σ → Prop} {ahead : σ → List β} {left : σ → ℕ}

/-- **What the party puts out** is the beginning of what was ahead of it, or all of that and
something after it; and all of it once it has made its moves. -/
theorem Scripted.output (h : Scripted move out mine live ahead left) (as : List ι) {s : σ}
    (hs : live s) :
    (output move out as s <+: ahead s ∨ ahead s <+: output move out as s) ∧
      (left s ≤ count move mine as s → ahead s <+: output move out as s) := by
  induction as generalizing s with
  | nil => exact ⟨.inl List.nil_prefix, fun hle => absurd hle (not_le.mpr (h.left_pos s hs))⟩
  | cons a as ih =>
    simp only [Machine.output, count]
    by_cases hmine : mine a s
    · rw [if_pos hmine]
      rcases h.own a s hs hmine with hout | ⟨hout, hlive, hleft⟩
      · -- the last move
        rw [hout]
        exact ⟨.inr (List.prefix_append ..), fun _ => List.prefix_append ..⟩
      · obtain ⟨hbegins, hall⟩ := ih hlive
        rw [← hout, List.prefix_append_right_inj, List.prefix_append_right_inj]
        exact ⟨hbegins, fun hle => hall (by omega)⟩
    · obtain ⟨hout, hlive, hahead, hleft⟩ := h.other a s hs hmine
      obtain ⟨hbegins, hall⟩ := ih hlive
      rw [if_neg hmine, hout, List.nil_append, Nat.zero_add, ← hahead, ← hleft]
      exact ⟨hbegins, hall⟩

end Ossim.Machine
