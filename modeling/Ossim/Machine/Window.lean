import Ossim.Machine.Run

/-!
# A window over what comes in

A list into which things come at one end while the last one leaves at the other, as long as there
are supplies, one for each thing that comes in; once they are used up nothing comes in any more,
and one leaves all the same.

So the list is a window on the things that have come: the newest of those that supplies were left
for, and what the list began with, as far as it is not pushed out (`run_enter`).
-/

namespace Ossim.Machine

variable {α β : Type*}

/-- A list and its supplies. -/
structure Window (α β : Type*) where
  /-- What is in it, the newest first. -/
  items : List α
  /-- The supplies. -/
  supply : List β

namespace Window

/-- Something comes. -/
def enter (x : α) (w : Window α β) : Window α β :=
  match w.supply with
  | [] => { w with items := w.items.dropLast }
  | _ :: supply => ⟨x :: w.items.dropLast, supply⟩

/-- What the window shows when `xs` have come. -/
def shows (xs : List α) (w : Window α β) : List α :=
  ((xs.take w.supply.length).reverse ++ w.items).take
    (w.items.length - (xs.length - w.supply.length))

theorem run_enter_nil (xs : List α) (items : List α) :
    run enter xs (⟨items, []⟩ : Window α β) = ⟨items.take (items.length - xs.length), []⟩ := by
  induction xs generalizing items with
  | nil => rw [run_nil, List.length_nil, Nat.sub_zero, List.take_length]
  | cons x xs ih =>
    have hmin : min (items.length - 1 - xs.length) (items.length - 1) =
        items.length - (xs.length + 1) := by omega
    rw [run_cons, enter, ih, List.length_dropLast, List.dropLast_eq_take, List.take_take,
      List.length_cons, hmin]

/-- Of what leaves when something comes, the window shows nothing. -/
theorem take_append_cons_dropLast (ys : List α) (x : α) {items : List α} (hne : items ≠ []) {m : ℕ}
    (hm : m ≤ items.length) :
    (ys ++ x :: items.dropLast).take m = (ys ++ x :: items).take m := by
  have hlen : m ≤ (ys ++ x :: items.dropLast).length := by
    have hpos := List.length_pos_of_ne_nil hne
    simp only [List.length_append, List.length_cons, List.length_dropLast]
    omega
  conv_rhs => rw [← List.dropLast_concat_getLast hne, ← List.cons_append, ← List.append_assoc]
  rw [List.take_append_of_le_length hlen]

/-- **What the window shows**: the newest of what has come while there were supplies, and what it
began with. -/
theorem run_enter (xs : List α) {w : Window α β} (hne : w.items ≠ []) :
    run enter xs w = ⟨shows xs w, w.supply.drop xs.length⟩ := by
  induction xs generalizing w with
  | nil => simp [shows]
  | cons x xs ih =>
    obtain ⟨items, supply⟩ := w
    cases supply with
    | nil =>
      rw [run_enter_nil, shows]
      simp
    | cons b supply =>
      have hpos : 0 < items.length := List.length_pos_of_ne_nil hne
      have hlen : items.dropLast.length + 1 = items.length := by
        rw [List.length_dropLast]
        omega
      rw [run_cons, enter, ih (List.cons_ne_nil _ _), shows, shows]
      simp only [List.length_cons, List.take_succ_cons, List.reverse_cons, List.append_assoc,
        List.singleton_append, List.drop_succ_cons, hlen, Nat.add_sub_add_right]
      rw [take_append_cons_dropLast _ _ hne (Nat.sub_le _ _)]

theorem length_shows (xs : List α) (w : Window α β) :
    (shows xs w).length = w.items.length - (xs.length - w.supply.length) := by
  rw [shows, List.length_take, List.length_append]
  omega

end Window

end Ossim.Machine
