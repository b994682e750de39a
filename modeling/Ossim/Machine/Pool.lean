import Ossim.Machine.Run
import Mathlib.Data.Multiset.Basic

/-!
# A pool of things handed out and given back

A pool hands out the things on its free list one at a time, and puts what it is given back
on the list. It does not know who has what; that a client gives back only what it holds is
up to the clients (`Allowed`). While they keep to it nothing is lost and nothing appears:
what is held and what is free are together what there was (`things_run`).
-/

namespace Ossim.Machine.Pool

variable {C β : Type*}

/-- The free things, and who holds which of the others. -/
structure State (C β : Type*) where
  /-- The free list, the next to be handed out first. -/
  free : List β
  /-- The things handed out and not given back, each with its holder. -/
  held : List (C × β)

/-- The calls. -/
inductive Op (C β : Type*) where
  /-- `c` asks for a thing. -/
  | take (c : C)
  /-- `c` gives `x` back. -/
  | give (c : C) (x : β)

/-- What is held, without the holders. -/
def State.out (s : State C β) : List β := s.held.map Prod.snd

/-- A client gives back what it holds. -/
def Allowed (s : State C β) : Op C β → Prop
  | .take _ => True
  | .give c x => (c, x) ∈ s.held

/-- All the things, held or free. -/
def things (s : State C β) : Multiset β := ↑s.out + ↑s.free

/-- What is held and what is free, one after the other. -/
theorem things_eq (s : State C β) : things s = ↑(s.out ++ s.free) := (Multiset.coe_add ..).symm

variable [DecidableEq C] [DecidableEq β]

/-- A call. -/
def move : Op C β → State C β → State C β
  | .take c, s =>
    match s.free with
    | [] => s
    | x :: free => ⟨free, (c, x) :: s.held⟩
  | .give c x, s => ⟨x :: s.free, s.held.erase (c, x)⟩

/-- The step of the law. -/
theorem things_move {op : Op C β} {s : State C β} (h : Allowed s op) :
    things (move op s) = things s := by
  cases op with
  | take c =>
    obtain ⟨free, held⟩ := s
    cases free with
    | nil => rfl
    | cons x free =>
      simp only [move, things, State.out, List.map_cons, ← Multiset.cons_coe]
      rw [Multiset.cons_add, Multiset.add_cons]
  | give c x =>
    obtain ⟨free, held⟩ := s
    have hheld : (held.map Prod.snd : Multiset β) =
        x ::ₘ ((held.erase (c, x)).map Prod.snd : List β) := by
      rw [Multiset.cons_coe, Multiset.coe_eq_coe]
      exact (List.perm_cons_erase h).map Prod.snd
    simp only [move, things, State.out, ← Multiset.cons_coe]
    rw [hheld, Multiset.cons_add, Multiset.add_cons]

/-- **Nothing is lost and nothing appears.** -/
theorem things_run {ops : List (Op C β)} {s : State C β} (h : Along move Allowed ops s) :
    things (run move ops s) = things s :=
  h.invariant (I := fun t => things t = things s) (fun _ _ hs ha => (things_move ha).trans hs) rfl

end Ossim.Machine.Pool
