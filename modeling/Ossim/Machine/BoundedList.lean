import Ossim.Machine.Run

/-!
# A bounded list

A list with room for so many entries, entered at either end, and left from the front or by
name. What does not leave keeps its order, since the operations are those of lists; and the
list never outgrows its room (`length_run_le`).
-/

namespace Ossim.Machine.BoundedList

variable {α : Type*} [DecidableEq α]

/-- The operations. -/
inductive Op (α : Type*) where
  /-- Put `p` at the end. -/
  | append (p : α)
  /-- Put `p` in front. -/
  | prepend (p : α)
  /-- Take the front. -/
  | pop
  /-- Take out the first `p`. -/
  | remove (p : α)

/-- What an operation does to a list with room for `cap` entries. -/
def move (cap : ℕ) : Op α → List α → List α
  | .append p, l => if l.length < cap then l ++ [p] else l
  | .prepend p, l => if l.length < cap then p :: l else l
  | .pop, l => l.tail
  | .remove p, l => l.erase p

/-- What an operation returns. -/
def taken : Op α → List α → List (Option α)
  | .pop, l => [l.head?]
  | .remove p, l => [if p ∈ l then some p else none]
  | .append _, _ | .prepend _, _ => []

theorem length_move_le {cap : ℕ} (op : Op α) {l : List α} (h : l.length ≤ cap) :
    (move cap op l).length ≤ cap := by
  cases op with
  | append p =>
    simp only [move]
    split_ifs with hroom
    · rw [List.length_append]; exact hroom
    · exact h
  | prepend p =>
    simp only [move]
    split_ifs with hroom
    · exact hroom
    · exact h
  | pop => exact (List.tail_sublist l).length_le.trans h
  | remove p => exact List.erase_sublist.length_le.trans h

/-- The list never outgrows its room. -/
theorem length_run_le {cap : ℕ} (ops : List (Op α)) {l : List α} (h : l.length ≤ cap) :
    (run (move cap) ops l).length ≤ cap :=
  run_invariant (I := fun l : List α => l.length ≤ cap) (fun op _ hl => length_move_le op hl) ops h

end Ossim.Machine.BoundedList
