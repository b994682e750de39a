import Ossim.Machine.Run
import Ossim.Mem.Instruction

/-!
# Page replacement

The pages in use are a linked list: `enlist_pgn_node` puts a page at its head, and
`find_victim_page` walks to its last node, takes the page there and cuts the node off
through a pointer to the node before it. So the list, read from its end, is a queue, and
the victim is the page enlisted earliest of those still listed.

A list of one node has no node before its last. `find_victim_page` then stores through the
null pointer `prev`, so it does what it should at every call just when no call finds exactly
one page listed (`fifo_iff`).
-/

namespace Ossim.Mem

open Machine

/-- The calls. -/
inductive PgnOp where
  /-- `enlist_pgn_node(&mm->fifo_pgn, pgn)`. -/
  | enlistPgnNode (pgn : Addr)
  /-- `find_victim_page(mm, &retpgn)`. -/
  | findVictimPage
  deriving DecidableEq

/-- A call; after a call that goes wrong there is no `mm_struct` to speak of. -/
def pgnMove : PgnOp → Option Mm → Option Mm
  | .enlistPgnNode pgn, mm => mm.map fun mm => enlistPgnNode mm pgn
  | .findVictimPage, mm => (mm.bind findVictimPage).map Prod.snd

/-- The page a call returns. -/
def victim : PgnOp → Option Mm → List Addr
  | .enlistPgnNode _, _ => []
  | .findVictimPage, mm => ((mm.bind findVictimPage).bind Prod.fst).toList

/-- The page a call enlists. -/
def PgnOp.enlisted : PgnOp → Option Addr
  | .enlistPgnNode pgn => some pgn
  | .findVictimPage => none

/-- What a call should do to the queue of the pages listed, the earliest first. -/
def queueMove : PgnOp → List Addr → List Addr
  | .enlistPgnNode pgn, q => q ++ [pgn]
  | .findVictimPage, q => q.tail

/-- A call, and what it should do. -/
def fifoMove (op : PgnOp) (s : Option Mm × List Addr) : Option Mm × List Addr :=
  (pgnMove op s.1, queueMove op s.2)

/-- `find_victim_page` returns `-1` if nothing is listed, and else the page listed earliest; it
takes this page off the list and changes nothing else. -/
def Replaces (s : Option Mm × List Addr) (op : PgnOp) : Prop :=
  op = .findVictimPage → ∃ mm, s.1 = some mm ∧
    findVictimPage mm = some (s.2.head?, { mm with fifoPgn := some s.2.tail.reverse })

/-- No call of `find_victim_page` finds exactly one page listed. -/
def NotLast (q : List Addr) (op : PgnOp) : Prop := op = .findVictimPage → q.length ≠ 1

instance (q : List Addr) (op : PgnOp) : Decidable (NotLast q op) :=
  inferInstanceAs (Decidable (_ → _))

/-! ### One call -/

variable {mm : Mm} {q : List Addr}

/-- **What `find_victim_page` does**, the list read from its end. -/
theorem findVictimPage_eq (hq : mm.fifoPgn = some q.reverse) :
    findVictimPage mm = if q.length = 1 then none
      else some (q.head?, { mm with fifoPgn := some q.tail.reverse }) := by
  obtain ⟨l, rfl⟩ : ∃ l, q = List.reverse l := ⟨q.reverse, q.reverse_reverse.symm⟩
  rw [List.reverse_reverse] at hq
  rw [findVictimPage, hq, List.length_reverse, List.head?_reverse, List.tail_reverse,
    List.reverse_reverse]
  match l with
  | [] => simp [← hq]
  | [pgn] => rfl
  | pgn :: pgn' :: pgns =>
    rw [if_neg (by simp), List.getLast?_cons_cons, List.getLast?_eq_some_getLast]

/-- The queue after a call that is not the one that goes wrong. -/
theorem fifoPgn_pgnMove (hq : mm.fifoPgn = some q.reverse) {op : PgnOp} (hop : NotLast q op) :
    ∃ mm', pgnMove op (some mm) = some mm' ∧ mm'.fifoPgn = some (queueMove op q).reverse := by
  cases op with
  | enlistPgnNode pgn => exact ⟨_, rfl, by simp [enlistPgnNode, queueMove, hq]⟩
  | findVictimPage =>
    refine ⟨{ mm with fifoPgn := some q.tail.reverse }, ?_, rfl⟩
    rw [pgnMove, Option.bind_some, findVictimPage_eq hq, if_neg (hop rfl)]
    rfl

/-- A call does what it should unless it is the one that goes wrong. -/
theorem replaces_iff (hq : mm.fifoPgn = some q.reverse) (op : PgnOp) :
    Replaces (some mm, q) op ↔ NotLast q op := by
  refine imp_congr_right fun _ => ?_
  constructor
  · rintro ⟨mm', hmm', hfind⟩ hone
    obtain rfl := Option.some.inj hmm'
    rw [findVictimPage_eq hq, if_pos hone] at hfind
    cases hfind
  · intro hmany
    exact ⟨mm, rfl, by rw [findVictimPage_eq hq, if_neg hmany]⟩

/-- What a call takes off the queue is what it returns. -/
theorem victim_append (hq : mm.fifoPgn = some q.reverse) {op : PgnOp} (hop : NotLast q op) :
    victim op (some mm) ++ queueMove op q = q ++ op.enlisted.toList := by
  cases op with
  | enlistPgnNode pgn => rfl
  | findVictimPage =>
    rw [victim, Option.bind_some, findVictimPage_eq hq, if_neg (hop rfl)]
    cases q <;> simp [queueMove, PgnOp.enlisted]

/-! ### A run -/

theorem along_replaces_iff (hq : mm.fifoPgn = some q.reverse) (ops : List PgnOp) :
    Along fifoMove Replaces ops (some mm, q) ↔ Along queueMove NotLast ops q := by
  induction ops generalizing mm q with
  | nil => exact Iff.rfl
  | cons op ops ih =>
    rw [Along, Along, replaces_iff hq]
    refine and_congr_right fun hop => ?_
    obtain ⟨mm', hmm', hq'⟩ := fifoPgn_pgnMove hq hop
    rw [fifoMove, hmm']
    exact ih hq'

/-- The pages returned, and then the pages listed, are the pages that were listed and those
enlisted since. -/
theorem victims_append (hq : mm.fifoPgn = some q.reverse) {ops : List PgnOp}
    (h : Along queueMove NotLast ops q) :
    output pgnMove victim ops (some mm) ++ run queueMove ops q =
      q ++ ops.filterMap PgnOp.enlisted := by
  induction ops generalizing mm q with
  | nil => simp [output]
  | cons op ops ih =>
    obtain ⟨hop, hops⟩ := h
    obtain ⟨mm', hmm', hq'⟩ := fifoPgn_pgnMove hq hop
    rw [output, run_cons, hmm', List.append_assoc, ih hq' hops, ← List.append_assoc,
      victim_append hq hop]
    cases hen : op.enlisted <;> simp [hen]

/-- **The victims come out in the order in which pages were enlisted, but for the last page
listed.** From an empty list, every call does what it should just when no call of
`find_victim_page` finds exactly one page listed; the pages it then returns, followed by
those still listed, are those enlisted, in their order. -/
theorem fifo_iff (mm : Mm) (hmm : mm.fifoPgn = some []) (ops : List PgnOp) :
    (Along fifoMove Replaces ops (some mm, []) ↔ Along queueMove NotLast ops []) ∧
      (Along queueMove NotLast ops [] →
        output pgnMove victim ops (some mm) ++ run queueMove ops [] =
          ops.filterMap PgnOp.enlisted) :=
  ⟨along_replaces_iff hmm ops, victims_append hmm⟩

/-- Two pages are enlisted and the first is taken. -/
theorem fifo_two :
    output pgnMove victim [.enlistPgnNode 7, .enlistPgnNode 8, .findVictimPage]
      (some ⟨none, fun _ => ⟨0, 0⟩, some []⟩) ++ [8] = [7, 8] :=
  (fifo_iff ⟨none, fun _ => ⟨0, 0⟩, some []⟩ rfl
    [.enlistPgnNode 7, .enlistPgnNode 8, .findVictimPage]).2 (by decide)

/-- One page is enlisted and taken: the call has no value. -/
theorem fifo_one :
    ¬ Along fifoMove Replaces [.enlistPgnNode 7, .findVictimPage]
      (some ⟨none, fun _ => ⟨0, 0⟩, some []⟩, []) ∧
      findVictimPage ⟨none, fun _ => ⟨0, 0⟩, some [7]⟩ = none := by
  refine ⟨?_, rfl⟩
  rw [along_replaces_iff rfl]
  decide

end Ossim.Mem
