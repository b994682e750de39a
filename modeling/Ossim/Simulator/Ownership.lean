import Ossim.Sched.Conservation
import Ossim.Simulator.Routines

/-!
# Every process has one owner

Whatever the order of the turns of the loader and the CPUs, and whatever the timer
does, a process that has been loaded is in one place: a CPU holds it, it is once in one
ready queue, it has been freed, or a full queue dropped it (`copies_after`). So no two
CPUs ever run one process, and what has been run of it is its text up to `pc`, in order
(`exclusive_ownership`).
-/

namespace Ossim.Simulator

open Sched

variable {ι κ τ : Type*} {cfg : Config ι}

/-- The process a CPU holds: `proc`, but not between `free` or `put_proc` and the
assignment that follows it, when the variable is not used again. -/
def held {α : Type*} (x : Cpu α) : Option α :=
  match x.loc with
  | .reaped | .requeued => none
  | _ => x.proc

/-- How many CPUs hold process `p`. -/
def holders (s : State cfg τ) (p : cfg.Proc) : ℕ := ∑ c, if held (s.cpu c) = some p then 1 else 0

/-- `1` if the loader has not handed process `p` to the scheduler yet. -/
def pending (s : State cfg τ) (p : cfg.Proc) : ℕ := if s.i ≤ p then 1 else 0

/-- In how many places process `p` is. -/
def copies (s : State cfg τ) (p : cfg.Proc) : ℕ :=
  holders s p + (queued s.mlq).count p + s.freed.count p + s.dropped.count p + pending s p

/-- The instructions of process `p` that have been run. -/
def executed (s : State cfg τ) (p : cfg.Proc) : List ι :=
  s.log.filterMap fun e => if e.proc = p then some e.ins else none

/-! ### One turn moves a process from one place to another -/

theorem holders_setCpu (s : State cfg τ) (c : Fin cfg.numCpus) (x : Cpu cfg.Proc) (p : cfg.Proc) :
    holders (setCpu s c x) p + (if held (s.cpu c) = some p then 1 else 0) =
      holders s p + if held x = some p then 1 else 0 :=
  Machine.total_update (fun x : Cpu cfg.Proc => if held x = some p then 1 else 0) s.cpu c x

theorem count_getProc {α : Type*} [DecidableEq α] (m : Mlq α) (p : α) :
    (queued (getProc m).2).count p + (if (getProc m).1 = some p then 1 else 0) =
      (queued m).count p := by
  rw [← queued_getProc m, Multiset.count_add, add_comm]
  congr 1
  cases (getProc m).1 with
  | none => simp
  | some q => simp [Multiset.count_singleton, eq_comm]

/-- Handing process `p` to the scheduler puts it in its queue, or drops it. -/
theorem count_enlist (s : State cfg τ) (p q : cfg.Proc) :
    (queued (enlist cfg.prio (some p) s.mlq)).count q + (drop p s).count q =
      (queued s.mlq).count q + s.dropped.count q + if p = q then 1 else 0 := by
  unfold drop
  split_ifs with hroom hpq hpq
  · subst hpq; rw [queued_enlist hroom, Multiset.count_cons_self]; omega
  · rw [queued_enlist hroom, Multiset.count_cons_of_ne (Ne.symm hpq)]; omega
  · subst hpq; rw [queued_enlist_of_full hroom, List.count_cons_self]; omega
  · rw [queued_enlist_of_full hroom, List.count_cons_of_ne hpq]; omega

theorem copies_fetch {s : State cfg τ} {c : Fin cfg.numCpus} (h : held (s.cpu c) = none) {l : CpuLoc}
    (hl : l = .idle ∨ l = .recheck) (t : ℤ) (p : cfg.Proc) :
    copies (fetch c l t s) p = copies s p := by
  have hown := holders_setCpu s c
    ⟨if (getProc s.mlq).1.isNone then l else .recheck, (getProc s.mlq).1, t⟩ p
  have hheld : held ⟨if (getProc s.mlq).1.isNone then l else .recheck, (getProc s.mlq).1, t⟩ =
      (getProc s.mlq).1 := by
    rcases hl with rfl | rfl <;> cases (getProc s.mlq).1 <;> rfl
  have hqueue := count_getProc s.mlq p
  simp only [hheld, h, reduceCtorEq, if_false, add_zero] at hown
  show holders (setCpu s c _) p + (queued (getProc s.mlq).2).count p + s.freed.count p +
      s.dropped.count p + pending s p =
    holders s p + (queued s.mlq).count p + s.freed.count p + s.dropped.count p + pending s p
  omega

theorem Quiet.held_eq {clk : Clock (Party cfg.numCpus) κ τ} {c : Fin cfg.numCpus} {done : Bool}
    {k k' : τ} {x x' : Cpu cfg.Proc} (h : Quiet clk c done k x k' x') : held x' = held x := by
  cases h <;> rfl

theorem copies_setCpu {s : State cfg τ} {c : Fin cfg.numCpus} {x : Cpu cfg.Proc}
    (h : held x = held (s.cpu c)) (p : cfg.Proc) : copies (setCpu s c x) p = copies s p := by
  have hown := holders_setCpu s c x p
  rw [h] at hown
  simp only [copies, Nat.add_right_cancel hown]
  rfl

variable {clk : Clock (Party cfg.numCpus) κ τ} {s s' : State cfg τ}

theorem CpuTurn.copies_eq {c : Fin cfg.numCpus} (h : CpuTurn clk c s s') (p : cfg.Proc) :
    copies s' p = copies s p := by
  cases h with
  | load t h => exact copies_fetch (by rw [h]; rfl) (.inl rfl) t p
  | replace q t h => exact copies_fetch (by rw [h]; rfl) (.inr rfl) 0 p
  | rotate q t h => exact copies_fetch (by rw [h]; rfl) (.inr rfl) t p
  | free q t h hpc =>
    have hown := holders_setCpu s c ⟨.reaped, some q, t⟩ p
    simp only [h, held, reduceCtorEq, if_false, add_zero, Option.some.injEq] at hown
    show holders (setCpu s c _) p + (queued s.mlq).count p + (q :: s.freed).count p +
        s.dropped.count p + pending s p =
      holders s p + (queued s.mlq).count p + s.freed.count p + s.dropped.count p + pending s p
    simp only [List.count_cons, beq_iff_eq]
    omega
  | put q t h hpc ht =>
    have hown := holders_setCpu s c ⟨.requeued, some q, t⟩ p
    have hqueue := count_enlist s q p
    simp only [h, held, reduceCtorEq, if_false, add_zero, Option.some.injEq] at hown
    show holders (setCpu s c _) p + (queued (enlist cfg.prio (some q) s.mlq)).count p +
        s.freed.count p + (drop q s).count p + pending s p =
      holders s p + (queued s.mlq).count p + s.freed.count p + s.dropped.count p + pending s p
    omega
  | keep q t h hpc ht => exact copies_setCpu (by rw [h]; rfl) p
  | run q t h =>
    have hrun : copies (Simulator.run clk c q s) p = copies s p := by
      unfold Simulator.run; split_ifs <;> rfl
    rw [copies_setCpu (by rw [run_cpu, h]; rfl), hrun]
  | quiet k x h => exact @copies_setCpu _ _ cfg { s with clock := k } c x h.held_eq p

theorem LdTurn.copies_eq (h : LdTurn clk s s') (p : cfg.Proc) : copies s' p = copies s p := by
  cases h with
  | load h hloc => rfl
  | store h hloc => rfl
  | look h hloc => rfl
  | add h hloc =>
    have hqueue := count_enlist s ⟨s.i, h⟩ p
    have hpending : (if s.i + 1 ≤ (p : ℕ) then 1 else 0) +
        (if (⟨s.i, h⟩ : cfg.Proc) = p then 1 else 0) = pending s p := by
      simp only [pending, Fin.ext_iff]
      split_ifs <;> omega
    show holders s p + (queued (enlist cfg.prio (some ⟨s.i, h⟩) s.mlq)).count p + s.freed.count p +
        (drop ⟨s.i, h⟩ s).count p + (if s.i + 1 ≤ (p : ℕ) then 1 else 0) =
      holders s p + (queued s.mlq).count p + s.freed.count p + s.dropped.count p + pending s p
    omega
  | quiet k l h => rfl

/-! ### What a process has run -/

/-- The invariant. -/
structure Inv (s : State cfg τ) : Prop where
  /-- Every process is in one place. -/
  copies_eq : ∀ p, copies s p = 1
  /-- What has been run of a process is its text up to `pc`. -/
  executed_eq : ∀ p, executed s p = (cfg.text p).take (s.pc p)
  /-- `pc` does not leave the text. -/
  pc_le : ∀ p, s.pc p ≤ cfg.size p
  /-- A process freed has finished. -/
  finished : ∀ p ∈ s.freed, s.pc p = cfg.size p
  /-- A process still to be loaded has not begun. -/
  pc_eq_zero : ∀ p : cfg.Proc, s.i ≤ p → s.pc p = 0

theorem inv_initial (t : τ) : Inv (initial cfg t) where
  copies_eq := by
    intro p
    simp [copies, initial, holders, pending, held, queued_start]
  executed_eq := fun _ => rfl
  pc_le := fun _ => Nat.zero_le _
  finished := nofun
  pc_eq_zero := fun _ _ => rfl

theorem holders_pos {c : Fin cfg.numCpus} {p : cfg.Proc} (h : held (s.cpu c) = some p) :
    0 < holders s p := by
  have hle := Finset.single_le_sum (f := fun c => if held (s.cpu c) = some p then 1 else 0)
    (fun _ _ => Nat.zero_le _) (Finset.mem_univ c)
  simp only [h, if_true] at hle
  exact hle

/-- A process held by a CPU has been loaded and has not been freed. -/
theorem Inv.of_held (h : Inv s) {c : Fin cfg.numCpus} {p : cfg.Proc} (hp : held (s.cpu c) = some p) :
    p ∉ s.freed ∧ ¬ s.i ≤ (p : ℕ) := by
  have hone := h.copies_eq p
  have hpos := holders_pos hp
  constructor
  · intro hmem
    have := List.count_pos_iff.mpr hmem
    rw [copies] at hone
    omega
  · intro hle
    rw [copies, pending, if_pos hle] at hone
    omega

/-- No two CPUs hold a process. -/
theorem Inv.holder_eq (h : Inv s) {c c' : Fin cfg.numCpus} {p : cfg.Proc}
    (hc : held (s.cpu c) = some p) (hc' : held (s.cpu c') = some p) : c' = c := by
  by_contra hne
  have hle : ∑ d ∈ {c, c'}, (if held (s.cpu d) = some p then 1 else 0) ≤ holders s p :=
    Finset.sum_le_sum_of_subset (Finset.subset_univ _)
  rw [Finset.sum_pair (Ne.symm hne), if_pos hc, if_pos hc'] at hle
  have hone := h.copies_eq p
  rw [copies] at hone
  omega

/-- A turn that leaves the log, the counters and the loader alone, and frees no process that
has not finished. -/
theorem Inv.of_frame (h : Inv s) (hcopies : ∀ p, copies s' p = copies s p) (hlog : s'.log = s.log)
    (hpc : s'.pc = s.pc) (hi : s.i ≤ s'.i)
    (hfreed : ∀ p ∈ s'.freed, p ∈ s.freed ∨ s.pc p = cfg.size p) : Inv s' where
  copies_eq := fun p => (hcopies p).trans (h.copies_eq p)
  executed_eq := by
    intro p
    rw [executed, hlog, hpc]
    exact h.executed_eq p
  pc_le := fun p => hpc ▸ h.pc_le p
  finished := fun p hp => hpc ▸ (hfreed p hp).elim (h.finished p) id
  pc_eq_zero := fun p hp => hpc ▸ h.pc_eq_zero p (hi.trans hp)

/-- Running a process that a CPU holds. -/
theorem Inv.run (h : Inv s) {c : Fin cfg.numCpus} {p : cfg.Proc} (hp : held (s.cpu c) = some p) :
    Inv (run clk c p s) := by
  obtain ⟨hfreed, hloaded⟩ := h.of_held hp
  have hcopies : ∀ q, copies (Simulator.run clk c p s) q = copies s q := by
    intro q
    unfold Simulator.run; split_ifs <;> rfl
  by_cases hpc : s.pc p ≥ cfg.size p
  · rw [Simulator.run, dif_pos hpc]
    exact h
  · have hlt : s.pc p < (cfg.text p).length := Nat.lt_of_not_le hpc
    refine ⟨?_, ?_, ?_, ?_, ?_⟩
    · intro q
      exact (hcopies q).trans (h.copies_eq q)
    · intro q
      have hexec := h.executed_eq q
      rw [Simulator.run, dif_neg hpc]
      rw [executed] at hexec
      by_cases hqp : q = p
      · subst hqp
        simp only [executed, List.filterMap_append, hexec, List.filterMap_cons, if_true,
          List.filterMap_nil, Function.update_self]
        exact List.take_concat_get' _ _ hlt
      · simp only [executed, List.filterMap_append, hexec, List.filterMap_cons, Ne.symm hqp, if_false,
          List.filterMap_nil, List.append_nil, Function.update_of_ne hqp]
    · intro q
      rw [Simulator.run, dif_neg hpc]
      by_cases hqp : q = p
      · subst hqp
        simp only [Function.update_self]
        exact hlt
      · simp only [Function.update_of_ne hqp]
        exact h.pc_le q
    · intro q hq
      rw [Simulator.run, dif_neg hpc] at hq ⊢
      have hqp : q ≠ p := fun hqp => hfreed (hqp ▸ hq)
      simp only [Function.update_of_ne hqp]
      exact h.finished q hq
    · intro q hq
      rw [Simulator.run, dif_neg hpc] at hq ⊢
      have hqp : q ≠ p := fun hqp => hloaded (hqp ▸ hq)
      simp only [Function.update_of_ne hqp]
      exact h.pc_eq_zero q hq

theorem CpuTurn.inv {c : Fin cfg.numCpus} (hs : CpuTurn clk c s s') (h : Inv s) : Inv s' := by
  have hcopies := fun p => hs.copies_eq p
  cases hs with
  | load t hx => exact h.of_frame hcopies rfl rfl le_rfl fun _ hp => .inl hp
  | replace q t hx => exact h.of_frame hcopies rfl rfl le_rfl fun _ hp => .inl hp
  | rotate q t hx => exact h.of_frame hcopies rfl rfl le_rfl fun _ hp => .inl hp
  | free q t hx hpc =>
    apply h.of_frame hcopies rfl rfl le_rfl
    intro p hp
    rcases List.mem_cons.mp hp with rfl | hp
    · exact .inr hpc
    · exact .inl hp
  | put q t hx hpc ht => exact h.of_frame hcopies rfl rfl le_rfl fun _ hp => .inl hp
  | keep q t hx hpc ht => exact h.of_frame hcopies rfl rfl le_rfl fun _ hp => .inl hp
  | run q t hx =>
    have hrun : Inv (Simulator.run clk c q s) := h.run (c := c) (by rw [hx]; rfl)
    refine hrun.of_frame ?_ rfl rfl le_rfl fun _ hp => .inl hp
    intro p
    rw [hcopies, h.copies_eq, hrun.copies_eq]
  | quiet k x hx => exact h.of_frame hcopies rfl rfl le_rfl fun _ hp => .inl hp

theorem LdTurn.inv (hs : LdTurn clk s s') (h : Inv s) : Inv s' := by
  have hcopies := fun p => hs.copies_eq p
  cases hs with
  | load hi hloc =>
    -- the counter of the process loaded is `0` before and after
    have hpc : Function.update s.pc ⟨s.i, hi⟩ 0 = s.pc := by
      rw [← h.pc_eq_zero ⟨s.i, hi⟩ le_rfl, Function.update_eq_self]
    exact h.of_frame hcopies rfl hpc le_rfl fun _ hp => .inl hp
  | store hi hloc => exact h.of_frame hcopies rfl rfl le_rfl fun _ hp => .inl hp
  | look hi hloc => exact h.of_frame hcopies rfl rfl le_rfl fun _ hp => .inl hp
  | add hi hloc => exact h.of_frame hcopies rfl rfl (Nat.le_succ _) fun _ hp => .inl hp
  | quiet k l hl => exact h.of_frame hcopies rfl rfl le_rfl fun _ hp => .inl hp

theorem Inv.step {a : Turn cfg.numCpus κ} (h : Inv s) (hs : step clk a s = some s') : Inv s' := by
  rcases step_cases hs with ⟨c, -, hc⟩ | ⟨-, hld⟩ | ⟨i, k, -, -, rfl⟩
  · exact hc.inv h
  · exact hld.inv h
  · exact ⟨h.copies_eq, h.executed_eq, h.pc_le, h.finished, h.pc_eq_zero⟩

theorem inv_after (clk : Clock (Party cfg.numCpus) κ τ) (t : τ) (as : List (Turn cfg.numCpus κ)) :
    Inv (after clk t as) :=
  Machine.stutter_invariant (fun _ _ _ h hs => h.step hs) as (inv_initial t)

/-- A process freed stays freed. -/
theorem freed_subset {a : Turn cfg.numCpus κ} (hs : Simulator.step clk a s = some s') :
    s.freed ⊆ s'.freed := by
  rcases step_cases hs with ⟨c, -, hc⟩ | ⟨-, hld⟩ | ⟨i, k, -, -, rfl⟩
  · cases hc with
    | free q t hx hpc => exact List.subset_cons_self q s.freed
    | run q t hx =>
      simp only [setCpu, Simulator.run]
      split_ifs <;> exact List.Subset.refl _
    | _ => exact List.Subset.refl _
  · cases hld <;> exact List.Subset.refl _
  · exact List.Subset.refl _

theorem mem_freed_run {p : cfg.Proc} (as : List (Turn cfg.numCpus κ)) (h : p ∈ s.freed) :
    p ∈ (Machine.run (move clk) as s).freed :=
  @Machine.stutter_invariant _ _ (Simulator.step clk) (fun s => p ∈ s.freed)
    (fun _ _ _ h hs => freed_subset hs h) as _ h

/-- **Exclusive ownership, and each instruction run once**: in every state reached, and for
every process, no more than one CPU holds it, it has no more than one place in the ready
queues, and not both, nor either if it has been freed; it is freed only when it has
finished, and is not queued, held or run again; and what all CPUs have run of it is its text
up to `pc`, in order. -/
theorem exclusive_ownership (cfg : Config ι) (clk : Clock (Party cfg.numCpus) κ τ) (t : τ)
    (as : List (Turn cfg.numCpus κ)) (p : cfg.Proc) :
    holders (after clk t as) p + (queued (after clk t as).mlq).count p +
      (after clk t as).freed.count p ≤ 1 ∧
      executed (after clk t as) p = (cfg.text p).take ((after clk t as).pc p) ∧
      (after clk t as).pc p ≤ cfg.size p ∧
      (p ∈ (after clk t as).freed → (after clk t as).pc p = cfg.size p ∧
        ∀ bs, p ∈ (after clk t (as ++ bs)).freed ∧ executed (after clk t (as ++ bs)) p = cfg.text p ∧
          (queued (after clk t (as ++ bs)).mlq).count p = 0 ∧
          ∀ c, held ((after clk t (as ++ bs)).cpu c) ≠ some p) := by
  have h := inv_after clk t as
  have hone := h.copies_eq p
  rw [copies] at hone
  refine ⟨by omega, h.executed_eq p, h.pc_le p, ?_⟩
  intro hp
  refine ⟨h.finished p hp, ?_⟩
  intro bs
  have h' := inv_after clk t (as ++ bs)
  have hmem : p ∈ (after clk t (as ++ bs)).freed := by
    rw [after, Machine.run_append]
    exact mem_freed_run bs hp
  have hone' := h'.copies_eq p
  have hfreed := List.count_pos_iff.mpr hmem
  rw [copies] at hone'
  refine ⟨hmem, ?_, by omega, ?_⟩
  · rw [h'.executed_eq, h'.finished p hmem, Config.size, List.take_length]
  · intro c hc
    exact (h'.of_held hc).1 hmem

end Ossim.Simulator
