import Mathlib.Data.List.OfFn
import Mathlib.Logic.Function.Basic

/-!
# The array queue

`queue.c`: a queue of at most `MAX_QUEUE_SIZE` pointers kept in the first `size`
slots of an array. Taking an entry out shifts those behind it down in place, and
putting one in front shifts them all up.

A `Queue` carries the two facts that make its array accesses safe: `size` never
exceeds the array, and the slots below `size` hold pointers that are not `NULL`
(`enqueue` and `enqueue_front` refuse `NULL`). So every index below is a place of the array by its
type, and `Queue.toList` is the list of entries; the operations are shown to be
the operations of a bounded list on it. `NULL` is `none`. The queue argument of
the C functions is the address of a static queue at every call, so their test of
it against `NULL` is left out.
-/

namespace Ossim.Sched

/-- `MAX_QUEUE_SIZE`. -/
def maxQueueSize : ℕ := 50

/-- `struct queue_t`. -/
structure Queue (α : Type*) where
  /-- The array. -/
  proc : Fin maxQueueSize → Option α
  /-- How many of its slots are in use. -/
  size : ℕ
  /-- The slots in use are slots of the array. -/
  size_le : size ≤ maxQueueSize
  /-- No slot in use is `NULL`. -/
  filled : ∀ i : Fin maxQueueSize, i < size → (proc i).isSome

variable {α β : Type*}

namespace Queue

/-- The entries, front first. -/
def toList (q : Queue α) : List α :=
  List.ofFn fun i : Fin q.size => (q.proc ⟨i, i.isLt.trans_le q.size_le⟩).get (q.filled _ i.isLt)

@[simp] theorem length_toList (q : Queue α) : q.toList.length = q.size := List.length_ofFn

theorem getElem?_toList (q : Queue α) (i : ℕ) :
    q.toList[i]? = if h : i < q.size then q.proc ⟨i, h.trans_le q.size_le⟩ else none := by
  unfold toList
  rw [List.getElem?_ofFn]
  split_ifs <;> simp

/-- Two queues with the same slots in use have the same entries. -/
theorem toList_eq_iff {q : Queue α} {l : List α} :
    q.toList = l ↔ q.size = l.length ∧
      ∀ i (h : i < q.size), q.proc ⟨i, h.trans_le q.size_le⟩ = l[i]? := by
  constructor
  · rintro rfl
    refine ⟨by simp, ?_⟩
    intro i h
    rw [getElem?_toList, dif_pos h]
  · rintro ⟨hlen, hget⟩
    apply List.ext_getElem?
    intro i
    rw [getElem?_toList]
    split_ifs with h
    · exact hget i h
    · exact (List.getElem?_eq_none (by omega)).symm

end Queue

/-- `empty`. -/
def empty (q : Queue α) : Bool := q.size == 0

theorem empty_iff {q : Queue α} : empty q = true ↔ q.toList = [] := by
  rw [empty, beq_iff_eq, ← Queue.length_toList, List.length_eq_zero_iff]

theorem empty_eq_false_iff {q : Queue α} : empty q = false ↔ q.toList ≠ [] := by
  rw [← Bool.not_eq_true, empty_iff]

/-- `init_scheduler`'s `size = 0`: the array is left as it was. -/
def Queue.reset (q : Queue α) : Queue α where
  proc := q.proc
  size := 0
  size_le := Nat.zero_le _
  filled := fun _ h => absurd h (Nat.not_lt_zero _)

@[simp] theorem Queue.toList_reset (q : Queue α) : q.reset.toList = [] := rfl

/-- A queue as the program starts with it: static memory, all zero. -/
def Queue.zero : Queue α where
  proc := fun _ => none
  size := 0
  size_le := Nat.zero_le _
  filled := fun _ h => absurd h (Nat.not_lt_zero _)

/-! ### `enqueue` -/

/-- `enqueue`. -/
def enqueue (q : Queue α) : Option α → Queue α
  | none => q
  | some proc =>
    if h : q.size ≥ maxQueueSize then q
    else
      { proc := Function.update q.proc ⟨q.size, Nat.lt_of_not_le h⟩ (some proc)
        size := q.size + 1
        size_le := Nat.lt_of_not_le h
        filled := by
          intro i hi
          by_cases hiq : i = ⟨q.size, Nat.lt_of_not_le h⟩
          · rw [hiq, Function.update_self]; rfl
          · rw [Function.update_of_ne hiq]
            refine q.filled i (lt_of_le_of_ne (Nat.lt_succ_iff.mp hi) fun he => hiq (Fin.ext he)) }

/-- `enqueue` appends while there is room, and otherwise does nothing. -/
theorem toList_enqueue (q : Queue α) (p : α) :
    (enqueue q (some p)).toList =
      if q.toList.length < maxQueueSize then q.toList ++ [p] else q.toList := by
  simp only [enqueue, Queue.length_toList]
  split_ifs with hfull hroom hroom
  · omega
  · rfl
  · rw [Queue.toList_eq_iff]
    refine ⟨by simp, ?_⟩
    intro i hi
    simp only at hi ⊢
    by_cases hiq : i = q.size
    · subst hiq
      rw [Function.update_self, List.getElem?_append_right (by simp)]
      simp
    · have hlt : i < q.size := by omega
      rw [Function.update_of_ne (fun he => hiq (congrArg Fin.val he)),
        List.getElem?_append_left (by simpa),
        Queue.getElem?_toList, dif_pos hlt]
  · omega

/-! ### `enqueue_front` -/

/-- `for (i = k; i > 0; i--) a[i] = a[i - 1];`. -/
def shiftUp {n : ℕ} (a : Fin n → β) : (k : ℕ) → k < n → Fin n → β
  | 0, _ => a
  | k + 1, h => shiftUp (Function.update a ⟨k + 1, h⟩ (a ⟨k, by omega⟩)) k (by omega)

/-- The loop moves the entries up by one, the last one first, so that none is overwritten
before it is read. -/
theorem shiftUp_apply {n : ℕ} (k : ℕ) (a : Fin n → β) (h : k < n) (j : Fin n) :
    shiftUp a k h j = if hj : 0 < (j : ℕ) ∧ (j : ℕ) ≤ k then a ⟨j - 1, by omega⟩ else a j := by
  induction k generalizing a with
  | zero => rw [shiftUp, dif_neg (by omega)]
  | succ k ih =>
    rw [shiftUp, ih]
    by_cases hk : (j : ℕ) = k + 1
    · obtain rfl : j = ⟨k + 1, h⟩ := Fin.ext hk
      rw [dif_neg (by simp only; omega), dif_pos (by simp only; omega), Function.update_self]
      rfl
    · have hne : j ≠ ⟨k + 1, h⟩ := fun he => hk (congrArg Fin.val he)
      by_cases hj : 0 < (j : ℕ) ∧ (j : ℕ) ≤ k
      · rw [dif_pos hj, dif_pos (by omega), Function.update_of_ne]
        intro he
        have hval := congrArg Fin.val he
        simp only at hval
        omega
      · rw [dif_neg hj, dif_neg (by omega), Function.update_of_ne hne]

/-- `enqueue_front`. -/
def enqueueFront (q : Queue α) : Option α → Queue α
  | none => q
  | some proc =>
    if h : q.size ≥ maxQueueSize then q
    else
      have hroom : q.size < maxQueueSize := Nat.lt_of_not_le h
      { proc := Function.update (shiftUp q.proc q.size hroom)
          ⟨0, Nat.zero_lt_of_lt hroom⟩ (some proc)
        size := q.size + 1
        size_le := hroom
        filled := by
          intro i hi
          by_cases hi0 : (i : ℕ) = 0
          · obtain rfl : i = ⟨0, Nat.zero_lt_of_lt hroom⟩ := Fin.ext hi0
            rw [Function.update_self]; rfl
          · rw [Function.update_of_ne (fun he => hi0 (congrArg Fin.val he)), shiftUp_apply,
              dif_pos ⟨Nat.pos_of_ne_zero hi0, Nat.lt_succ_iff.mp hi⟩]
            exact q.filled _ (by simp only; omega) }

/-- `enqueue_front` prepends while there is room, and otherwise does nothing. -/
theorem toList_enqueueFront (q : Queue α) (p : α) :
    (enqueueFront q (some p)).toList =
      if q.toList.length < maxQueueSize then p :: q.toList else q.toList := by
  simp only [enqueueFront, Queue.length_toList]
  split_ifs with hfull hroom hroom
  · omega
  · rfl
  · rw [Queue.toList_eq_iff]
    refine ⟨by simp, ?_⟩
    intro i hi
    simp only at hi ⊢
    cases i with
    | zero => rw [Function.update_self]; rfl
    | succ i =>
      have hlt : i < q.size := by omega
      rw [Function.update_of_ne (fun he => absurd (congrArg Fin.val he) (Nat.succ_ne_zero i)),
        shiftUp_apply, dif_pos ⟨Nat.succ_pos i, by simp only; omega⟩, List.getElem?_cons_succ,
        Queue.getElem?_toList, dif_pos hlt]
      rfl
  · omega

/-! ### `dequeue` and `purgequeue` -/

/-- `for (i = lo + 1; i <= lo + k; i++) a[i - 1] = a[i];`. -/
def shiftDown {n : ℕ} (a : Fin n → β) (lo : ℕ) : (k : ℕ) → lo + k < n → Fin n → β
  | 0, _ => a
  | k + 1, h =>
    shiftDown (Function.update a ⟨lo, by omega⟩ (a ⟨lo + 1, by omega⟩)) (lo + 1) k (by omega)

/-- The loop moves the entries after `lo` down by one and disturbs no other: it reads
each slot before the next iteration overwrites it. -/
theorem shiftDown_apply {n : ℕ} (k : ℕ) (a : Fin n → β) (lo : ℕ) (h : lo + k < n) (j : Fin n) :
    shiftDown a lo k h j = if hj : lo ≤ j ∧ j < lo + k then a ⟨j + 1, by omega⟩ else a j := by
  induction k generalizing a lo with
  | zero => rw [shiftDown, dif_neg (by omega)]
  | succ k ih =>
    rw [shiftDown, ih]
    by_cases hlo : (j : ℕ) = lo
    · subst hlo
      rw [dif_neg (by omega), dif_pos (by omega), Function.update_self]
    · have hne : j ≠ ⟨lo, by omega⟩ := fun he => hlo (congrArg Fin.val he)
      by_cases hj : lo + 1 ≤ (j : ℕ) ∧ (j : ℕ) < lo + 1 + k
      · rw [dif_pos hj, dif_pos (by omega), Function.update_of_ne]
        intro he
        have hval := congrArg Fin.val he
        simp only at hval
        omega
      · rw [dif_neg hj, dif_neg (by omega), Function.update_of_ne hne]

/-- `for (j = i + 1; j < q->size; j++) q->proc[j - 1] = q->proc[j]; q->size--;
q->proc[q->size] = NULL;`. -/
def removeAt (q : Queue α) (i : ℕ) (hi : i < q.size) : Queue α where
  proc := Function.update
    (shiftDown q.proc i (q.size - 1 - i) (by have := q.size_le; omega))
    ⟨q.size - 1, by have := q.size_le; omega⟩ none
  size := q.size - 1
  size_le := (Nat.sub_le _ _).trans q.size_le
  filled := by
    intro j hj
    rw [Function.update_of_ne (fun he => absurd (congrArg Fin.val he) hj.ne), shiftDown_apply]
    split_ifs with hij
    · exact q.filled _ (by simp only; omega)
    · exact q.filled j (by omega)

/-- The entry at `i` is gone and the others are as they were, in order. -/
theorem toList_removeAt (q : Queue α) (i : ℕ) (hi : i < q.size) :
    (removeAt q i hi).toList = q.toList.eraseIdx i := by
  rw [Queue.toList_eq_iff]
  refine ⟨by rw [List.length_eraseIdx, Queue.length_toList, if_pos hi]; rfl, ?_⟩
  intro j hj
  simp only [removeAt] at hj ⊢
  rw [Function.update_of_ne (fun he => absurd (congrArg Fin.val he) hj.ne), shiftDown_apply,
    List.getElem?_eraseIdx]
  have hj' : j < q.size := by omega
  by_cases hij : j < i
  · rw [dif_neg (by simp only; omega), if_pos hij, Queue.getElem?_toList, dif_pos hj']
  · have hnext : j + 1 < q.size := by omega
    rw [dif_pos (by simp only; omega), if_neg hij, Queue.getElem?_toList, dif_pos hnext]

/-- `dequeue`. -/
def dequeue (q : Queue α) : Option α × Queue α :=
  if h : q.size = 0 then (none, q)
  else
    have hpos : 0 < q.size := Nat.pos_of_ne_zero h
    have hlast : q.size - 1 < maxQueueSize := (Nat.sub_lt hpos Nat.one_pos).trans_le q.size_le
    (q.proc ⟨0, hpos.trans_le q.size_le⟩,
      { proc := Function.update (shiftDown q.proc 0 (q.size - 1) (by omega)) ⟨q.size - 1, hlast⟩ none
        size := q.size - 1
        size_le := hlast.le
        filled := by
          intro i hi
          rw [Function.update_of_ne (fun he => absurd (congrArg Fin.val he) hi.ne), shiftDown_apply,
            dif_pos ⟨Nat.zero_le _, by omega⟩]
          exact q.filled _ (by simp only; omega) })

/-- `dequeue` returns the front, `NULL` if there is none. -/
theorem dequeue_fst (q : Queue α) : (dequeue q).1 = q.toList.head? := by
  rw [List.head?_eq_getElem?, Queue.getElem?_toList]
  unfold dequeue
  split_ifs with h h' h'
  · omega
  · rfl
  · rfl
  · omega

/-- `dequeue` takes out the entry at `0`. -/
theorem dequeue_snd (q : Queue α) :
    (dequeue q).2 = if h : q.size = 0 then q else removeAt q 0 (Nat.pos_of_ne_zero h) := by
  unfold dequeue
  split_ifs <;> rfl

/-- `dequeue` leaves the rest, in order. -/
theorem toList_dequeue (q : Queue α) : (dequeue q).2.toList = q.toList.tail := by
  rw [dequeue_snd]
  split_ifs with h
  · have hnil : q.toList = [] := List.length_eq_zero_iff.mp (by simpa using h)
    rw [hnil]
    rfl
  · rw [toList_removeAt, List.eraseIdx_zero]

variable [DecidableEq α]

/-- `for (; i < q->size; i++) if (q->proc[i] == proc) { remove it; return it; }`, with `k`
iterations to go. -/
def purgeFrom (q : Queue α) (proc : α) : (i k : ℕ) → i + k = q.size → Option α × Queue α
  | _, 0, _ => (none, q)
  | i, k + 1, h =>
    have hi : i < q.size := by omega
    if q.proc ⟨i, hi.trans_le q.size_le⟩ = some proc then
      (q.proc ⟨i, hi.trans_le q.size_le⟩, removeAt q i hi)
    else purgeFrom q proc (i + 1) k (by omega)

/-- `purgequeue`. -/
def purgequeue (q : Queue α) : Option α → Option α × Queue α
  | none => (none, q)
  | some proc => if q.size = 0 then (none, q) else purgeFrom q proc 0 q.size (Nat.zero_add _)

/-- The first occurrence of `p` is the one `erase` takes out. -/
theorem erase_eq_eraseIdx {l : List α} {p : α} {i : ℕ} (hget : l[i]? = some p)
    (hbefore : p ∉ l.take i) : l.erase p = l.eraseIdx i := by
  obtain ⟨hlt, hp⟩ := List.getElem?_eq_some_iff.mp hget
  have hsplit : l = l.take i ++ p :: l.drop (i + 1) := by
    rw [← hp, ← List.drop_eq_getElem_cons hlt, List.take_append_drop]
  conv_lhs => rw [hsplit]
  rw [List.erase_append_right _ hbefore, List.erase_cons_head, List.eraseIdx_eq_take_drop_succ]

/-- The loop, where `proc` is not among the entries before `i`: it takes out the first
occurrence, if there is one. -/
theorem purgeFrom_spec {q : Queue α} {p : α} {i k : ℕ} (h : i + k = q.size)
    (hbefore : p ∉ q.toList.take i) :
    (p ∈ q.toList ∧ (purgeFrom q p i k h).1 = some p ∧
        (purgeFrom q p i k h).2.toList = q.toList.erase p) ∨
      (p ∉ q.toList ∧ purgeFrom q p i k h = (none, q)) := by
  induction k generalizing i with
  | zero =>
    have hall : q.toList.take i = q.toList := List.take_of_length_le (by simp; omega)
    exact Or.inr ⟨hall ▸ hbefore, rfl⟩
  | succ k ih =>
    have hi : i < q.size := by omega
    have hget : q.toList[i]? = q.proc ⟨i, hi.trans_le q.size_le⟩ := by
      rw [Queue.getElem?_toList, dif_pos hi]
    rw [purgeFrom]
    split_ifs with hp
    · have hfirst : q.toList[i]? = some p := hget.trans hp
      refine Or.inl ⟨List.mem_of_getElem? hfirst, hp, ?_⟩
      rw [toList_removeAt, erase_eq_eraseIdx hfirst hbefore]
    · apply ih
      rw [List.take_add_one, hget]
      intro hmem
      rcases List.mem_append.mp hmem with hmem | hmem
      · exact hbefore hmem
      · exact hp (Option.mem_toList.mp hmem)

/-- `purgequeue` takes out the first occurrence, and does nothing where there is none. -/
theorem purgequeue_spec (q : Queue α) (p : α) :
    (p ∈ q.toList ∧ (purgequeue q (some p)).1 = some p ∧
        (purgequeue q (some p)).2.toList = q.toList.erase p) ∨
      (p ∉ q.toList ∧ purgequeue q (some p) = (none, q)) := by
  simp only [purgequeue]
  split_ifs with h
  · have hnil : q.toList = [] := List.length_eq_zero_iff.mp (by simpa using h)
    exact Or.inr ⟨by simp [hnil], rfl⟩
  · exact purgeFrom_spec _ (by simp)

end Ossim.Sched
