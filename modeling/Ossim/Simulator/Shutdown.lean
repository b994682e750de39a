import Ossim.Simulator.Ownership

/-!
# How the simulator ends

A CPU stops when `get_proc` returned `NULL` and then `done` is set. Two things are wrong
with this.

* Between the two the loader may hand in its last process and set `done`. If every CPU is
  there just then, all of them stop and the process is never run; in every other case
  nothing is left (`nothing_left_iff`, `last_process_left`).
* A CPU that finds no process at the top of the loop goes on to the next slot without
  looking at `done`. So a CPU that is idle at the top when the work is over never stops
  (`idle_cpu_never_stops`, `idle_cpu_loops`).
-/

namespace Ossim.Simulator

open Sched

variable {ι κ τ : Type*} {cfg : Config ι}

/-- The processes fit the scheduler: a queue has room for them all, and every priority is
one the scheduler has. -/
structure Config.Fits (cfg : Config ι) : Prop where
  /-- There are no more processes than a queue has room for. -/
  numProcesses_le : cfg.numProcesses ≤ maxQueueSize
  /-- Every priority has a queue. -/
  prio_lt : ∀ p, cfg.prio p < maxPrio

/-- Every ready queue is empty. -/
def QueuesEmpty (s : State cfg τ) : Prop := ∀ i, (s.mlq.mlqReadyQueue i).toList = []

/-- The loader has finished and every CPU has left its loop. -/
def Stopped (s : State cfg τ) : Prop := s.ld = .exited ∧ ∀ c, (s.cpu c).loc = .exited

instance (s : State cfg τ) : Decidable (QueuesEmpty s) :=
  inferInstanceAs (Decidable (∀ i, (s.mlq.mlqReadyQueue i).toList = []))

instance (s : State cfg τ) : Decidable (Stopped s) :=
  inferInstanceAs (Decidable (s.ld = .exited ∧ ∀ c, (s.cpu c).loc = .exited))

variable {clk : Clock (Party cfg.numCpus) κ τ} {s s' : State cfg τ}

/-! ### Nothing is dropped if the processes fit -/

/-- A multiset of numbers below `n` that has none of them twice, and not all of them, has
fewer than `n` members. -/
theorem card_lt_of_count {n : ℕ} {m : Multiset (Fin n)} {p : Fin n} (h : ∀ q, m.count q ≤ 1)
    (hp : m.count p = 0) :
    m.card < n := by
  have hnodup : (p ::ₘ m).Nodup :=
    Multiset.nodup_cons.mpr ⟨Multiset.count_eq_zero.mp hp, Multiset.nodup_iff_count_le_one.mpr h⟩
  have hcard := Multiset.card_le_card
    ((Multiset.le_iff_subset hnodup).mpr fun q _ => Finset.mem_univ_val q)
  rw [Multiset.card_cons, Finset.card_val, Finset.card_univ, Fintype.card_fin] at hcard
  exact hcard

/-- A process that is not queued finds room. -/
theorem Inv.hasRoom (h : Inv s) (hfits : cfg.Fits) {p : cfg.Proc} (hp : (queued s.mlq).count p = 0) :
    HasRoom cfg.prio s.mlq p := by
  refine ⟨hfits.prio_lt p, ?_⟩
  have hcount : ∀ q, (queued s.mlq).count q ≤ 1 := by
    intro q
    have := h.copies_eq q
    rw [copies] at this
    omega
  have hcard := card_lt_of_count hcount hp
  have hlen := length_toList_le s.mlq ⟨cfg.prio p, hfits.prio_lt p⟩
  have hle := hfits.numProcesses_le
  omega

theorem dropped_eq (h : Inv s) (hfits : cfg.Fits) {a : Turn cfg.numCpus κ}
    (hs : step clk a s = some s') :
    s'.dropped = s.dropped := by
  have hdrop : ∀ p, (queued s.mlq).count p = 0 → drop p s = s.dropped := by
    intro p hp
    exact if_pos (h.hasRoom hfits hp)
  rcases step_cases hs with ⟨c, -, hc⟩ | ⟨-, hld⟩ | ⟨i, k, -, -, rfl⟩
  · cases hc with
    | put p t hx hpc ht =>
      have hone := h.copies_eq p
      have hpos := holders_pos (s := s) (c := c) (p := p) (by rw [hx]; rfl)
      rw [copies] at hone
      exact hdrop p (by omega)
    | run p t hx =>
      simp only [setCpu, run]
      split_ifs <;> rfl
    | _ => rfl
  · cases hld with
    | add hi hloc =>
      have hone := h.copies_eq ⟨s.i, hi⟩
      rw [copies, pending, if_pos le_rfl] at hone
      exact hdrop _ (by omega)
    | _ => rfl
  · rfl

theorem dropped_after (clk : Clock (Party cfg.numCpus) κ τ) (hfits : cfg.Fits) (t : τ)
    (as : List (Turn cfg.numCpus κ)) : (after clk t as).dropped = [] := by
  have h : Inv (after clk t as) ∧ (after clk t as).dropped = [] :=
    @Machine.stutter_invariant _ _ (step clk) (fun s => Inv s ∧ s.dropped = [])
      (fun _ _ _ h hs => ⟨h.1.step hs, (dropped_eq h.1 hfits hs).trans h.2⟩) as _ ⟨inv_initial t, rfl⟩
  exact h.2

/-! ### The ways out of the loops -/

/-- A CPU past its loop. -/
def Left {α : Type*} (x : Cpu α) : Prop := x.loc = .detach ∨ x.loc = .exited

/-- A CPU that got no process and is to look at `done`. -/
def AtTest {α : Type*} (x : Cpu α) : Prop := x.loc = .recheck ∧ x.proc = none

/-- What holds of the variable `done` and of the ways out of the loops. -/
structure Ending (s : State cfg τ) : Prop where
  /-- `done` is set when the loader leaves its loop. -/
  done_iff : s.done = true ↔ s.ld = .detach ∨ s.ld = .exited
  /-- The loader leaves its loop when it has been through all processes. -/
  loaded : s.done = true → ¬ s.i < cfg.numProcesses
  /-- A CPU leaves its loop when `done` is set, and with no process. -/
  left : ∀ c, Left (s.cpu c) → s.done = true ∧ (s.cpu c).proc = none

theorem ending_initial (t : τ) : Ending (initial cfg t) where
  done_iff := by simp [initial]
  loaded := nofun
  left := by
    intro c h
    rcases h with h | h <;> cases h

theorem setCpu_cpu (s : State cfg τ) (c : Fin cfg.numCpus) (x : Cpu cfg.Proc) (c' : Fin cfg.numCpus) :
    (setCpu s c x).cpu c' = if c' = c then x else s.cpu c' := by
  simp only [setCpu, Function.update_apply]

/-- A CPU that asks for a process gets one, or there is none. -/
theorem fetch_cases (c : Fin cfg.numCpus) (l : CpuLoc) (t : ℤ) (s : State cfg τ) :
    (¬ QueuesEmpty s ∧ ∃ p, (fetch c l t s).cpu c = ⟨.recheck, some p, t⟩) ∨
      (QueuesEmpty s ∧ QueuesEmpty (fetch c l t s) ∧ (fetch c l t s).cpu c = ⟨l, none, t⟩) := by
  rcases getMlqProc_cases s.mlq with ⟨i, p, -, hhead, hget⟩ | ⟨hempty, hget⟩
  · left
    refine ⟨?_, p, ?_⟩
    · intro h
      rw [h i] at hhead
      cases hhead
    · simp [fetch, setCpu, getProc, hget]
  · right
    refine ⟨hempty, ?_, ?_⟩
    · intro i
      simp only [fetch, setCpu, getProc, hget, atCall_mlqReadyQueue]
      exact hempty i
    · simp [fetch, setCpu, getProc, hget]

/-- If one CPU changes and stays in the loop, or stops with `done` set, nothing else about
the end changes. -/
theorem Ending.setCpu (h : Ending s) {c : Fin cfg.numCpus} {x : Cpu cfg.Proc}
    (hx : Left x → s.done = true ∧ x.proc = none) : Ending (setCpu s c x) where
  done_iff := h.done_iff
  loaded := h.loaded
  left := by
    intro c' hl
    rw [setCpu_cpu] at hl ⊢
    split_ifs at hl ⊢
    · exact hx hl
    · exact h.left c' hl

theorem Ending.fetch (h : Ending s) (c : Fin cfg.numCpus) {l : CpuLoc}
    (hl : l = .idle ∨ l = .recheck) (t : ℤ) :
    Ending (fetch c l t s) := by
  have h' : Ending { s with mlq := (getProc s.mlq).2 } := ⟨h.done_iff, h.loaded, h.left⟩
  apply h'.setCpu
  intro hleft
  rcases hl with rfl | rfl <;> cases hget : (getProc s.mlq).1 <;> simp [Left, hget] at hleft

theorem Quiet.left_of {c : Fin cfg.numCpus} {done : Bool} {k k' : τ} {x x' : Cpu cfg.Proc}
    (h : Quiet clk c done k x k' x') (hx' : Left x') :
    (done = true ∧ x'.proc = none) ∨ (Left x ∧ x'.proc = x.proc) := by
  cases h with
  | stop t h => exact .inl ⟨h, rfl⟩
  | exit p t h => exact .inr ⟨.inl rfl, rfl⟩
  | _ => rcases hx' with hx' | hx' <;> cases hx'

theorem CpuTurn.ending {c : Fin cfg.numCpus} (hs : CpuTurn clk c s s') (h : Ending s) :
    Ending s' := by
  cases hs with
  | load t hx => exact h.fetch c (.inl rfl) t
  | replace p t hx => exact h.fetch c (.inr rfl) 0
  | rotate p t hx => exact h.fetch c (.inr rfl) t
  | free p t hx hpc =>
    have h' := h.setCpu (c := c) (x := ⟨.reaped, some p, t⟩) (by rintro (h | h) <;> cases h)
    exact ⟨h'.done_iff, h'.loaded, h'.left⟩
  | put p t hx hpc ht =>
    have h' : Ending (putBack p s) := ⟨h.done_iff, h.loaded, h.left⟩
    exact h'.setCpu (by rintro (h | h) <;> cases h)
  | keep p t hx hpc ht => exact h.setCpu (by rintro (h | h) <;> cases h)
  | run p t hx =>
    have h' : Ending (Simulator.run clk c p s) := by
      unfold Simulator.run; split_ifs
      · exact h
      · exact ⟨h.done_iff, h.loaded, h.left⟩
    exact h'.setCpu (by rintro (h | h) <;> cases h)
  | quiet k x hx =>
    have h' : Ending { s with clock := k } := ⟨h.done_iff, h.loaded, h.left⟩
    apply h'.setCpu
    intro hleft
    rcases hx.left_of hleft with hstop | ⟨hold, hproc⟩
    · exact hstop
    · rw [hproc]
      exact h.left c hold

theorem LdTurn.ending (hs : LdTurn clk s s') (h : Ending s) : Ending s' := by
  have hdone : s.ld ≠ .detach → s.ld ≠ .exited → s.done = false := by
    intro h₁ h₂
    rw [← Bool.not_eq_true, h.done_iff]
    exact not_or.mpr ⟨h₁, h₂⟩
  cases hs with
  | load hi hloc =>
    have hd := hdone (by simp [hloc]) (by simp [hloc])
    exact ⟨by simp [hd], by simp [hd], h.left⟩
  | store hi hloc => exact ⟨by simp, fun _ => hi, fun c hc => ⟨rfl, (h.left c hc).2⟩⟩
  | look hi hloc =>
    have hd := hdone (by simp [hloc]) (by simp [hloc])
    exact ⟨by simp only [hd]; split_ifs <;> simp, by simp [hd], h.left⟩
  | add hi hloc =>
    have hd := hdone (by simp [hloc]) (by simp [hloc])
    exact ⟨by simp [handOver, hd], by simp [handOver, hd], h.left⟩
  | quiet k l hl =>
    refine ⟨?_, h.loaded, h.left⟩
    have hiff := h.done_iff
    generalize s.ld = l₀ at hl hiff
    cases hl with
    | idle _ => simpa using hiff
    | wake _ => simpa using hiff
    | exit _ => simpa using hiff

theorem Ending.step {a : Turn cfg.numCpus κ} (h : Ending s) (hs : step clk a s = some s') :
    Ending s' := by
  rcases step_cases hs with ⟨c, -, hc⟩ | ⟨-, hld⟩ | ⟨i, k, -, -, rfl⟩
  · exact hc.ending h
  · exact hld.ending h
  · exact ⟨h.done_iff, h.loaded, h.left⟩

theorem ending_after (clk : Clock (Party cfg.numCpus) κ τ) (t : τ) (as : List (Turn cfg.numCpus κ)) :
    Ending (after clk t as) :=
  Machine.stutter_invariant (fun _ _ _ h hs => h.step hs) as (ending_initial t)

/-- Once `done` is set, the loader does nothing but leave. -/
theorem LdTurn.of_done (hs : LdTurn clk s s') (h : Ending s) (hdone : s.done = true) :
    ∃ k l, s' = { s with clock := k, ld := l } := by
  have hloc := h.done_iff.mp hdone
  cases hs with
  | load hi hl => rw [hl] at hloc; rcases hloc with h | h <;> cases h
  | store hi hl => rw [hl] at hloc; rcases hloc with h | h <;> cases h
  | look hi hl => rw [hl] at hloc; rcases hloc with h | h <;> cases h
  | add hi hl => rw [hl] at hloc; rcases hloc with h | h <;> cases h
  | quiet k l hl => exact ⟨k, l, rfl⟩

/-! ### The last process -/

/-- A process waits, and every CPU has got none and is to look at `done`. -/
def Unattended (s : State cfg τ) : Prop := ¬ QueuesEmpty s ∧ ∀ c, AtTest (s.cpu c)

/-- If the turn is the loader's store `done = 1`, no process is unattended. -/
def Attended (s : State cfg τ) (a : Turn cfg.numCpus κ) : Prop :=
  a = .ld → s.ld = .head → ¬ s.i < cfg.numProcesses → ¬ Unattended s

/-- A CPU that will ask for a process before it stops. -/
def Active {α : Type*} (x : Cpu α) : Prop := ¬ Left x ∧ ¬ AtTest x

/-- Once `done` is set, a process that waits will be asked for. -/
def Covered (s : State cfg τ) : Prop := s.done = true → QueuesEmpty s ∨ ∃ c, Active (s.cpu c)

theorem active_of_loc {α : Type*} {x : Cpu α}
    (h : x.loc ≠ .recheck ∧ x.loc ≠ .detach ∧ x.loc ≠ .exited) : Active x :=
  ⟨not_or.mpr h.2, fun ht => h.1 ht.1⟩

theorem active_of_some {α : Type*} {p : α} {t : ℤ} : Active (⟨.recheck, some p, t⟩ : Cpu α) :=
  ⟨fun h => h.elim nofun nofun, fun h => nomatch h.2⟩

theorem Quiet.active {c : Fin cfg.numCpus} {done : Bool} {k k' : τ} {x x' : Cpu cfg.Proc}
    (h : Quiet clk c done k x k' x') (hx : Active x) : Active x' := by
  cases h with
  | stop t h => exact absurd ⟨rfl, rfl⟩ hx.2
  | exit p t h => exact absurd (.inl rfl) hx.1
  | _ => exact active_of_loc (by simp)

theorem active_setCpu (s : State cfg τ) {c : Fin cfg.numCpus} {x : Cpu cfg.Proc} (hx : Active x) :
    ∃ c', Active ((setCpu s c x).cpu c') := ⟨c, by rw [setCpu_cpu, if_pos rfl]; exact hx⟩

theorem covered_fetch (s : State cfg τ) (c : Fin cfg.numCpus) (l : CpuLoc) (t : ℤ) :
    Covered (fetch c l t s) := by
  intro _
  rcases fetch_cases c l t s with ⟨-, p, hp⟩ | ⟨-, hempty, -⟩
  · exact .inr ⟨c, by rw [hp]; exact active_of_some⟩
  · exact .inl hempty

theorem CpuTurn.covered {c : Fin cfg.numCpus} (hs : CpuTurn clk c s s') (h : Covered s) :
    Covered s' := by
  cases hs with
  | load t hx => exact covered_fetch s c _ t
  | replace p t hx => exact covered_fetch s c _ 0
  | rotate p t hx => exact covered_fetch s c _ t
  | free p t hx hpc => exact fun _ => .inr (active_setCpu s (active_of_loc (by simp)))
  | put p t hx hpc ht => exact fun _ => .inr (active_setCpu _ (active_of_loc (by simp)))
  | keep p t hx hpc ht => exact fun _ => .inr (active_setCpu _ active_of_some)
  | run p t hx => exact fun _ => .inr (active_setCpu _ (active_of_loc (by simp)))
  | quiet k x hx =>
    intro hdone
    rcases h hdone with hempty | ⟨c', hc'⟩
    · exact .inl hempty
    · by_cases hcc : c' = c
      · subst hcc
        exact .inr (active_setCpu _ (hx.active hc'))
      · exact .inr ⟨c', by rw [setCpu_cpu, if_neg hcc]; exact hc'⟩

/-- The loader's store is the one turn that needs the condition. -/
theorem LdTurn.covered (hs : LdTurn clk s s') (hend : Ending s)
    (hatt : s.ld = .head → ¬ s.i < cfg.numProcesses → ¬ Unattended s) (h : Covered s) :
    Covered s' := by
  by_cases hdone : s.done = true
  · obtain ⟨k, l, rfl⟩ := hs.of_done hend hdone
    exact h
  · intro hdone'
    cases hs with
    | store hi hloc =>
      by_cases hempty : QueuesEmpty s
      · exact .inl hempty
      · have hnot : ¬ ∀ c, AtTest (s.cpu c) := by
          intro hall
          exact hatt hloc hi ⟨hempty, hall⟩
        obtain ⟨c, hc⟩ := not_forall.mp hnot
        exact .inr ⟨c, fun hleft => hdone (hend.left c hleft).1, hc⟩
    | load hi hloc => exact absurd hdone' hdone
    | look hi hloc => exact absurd hdone' hdone
    | add hi hloc => exact absurd hdone' hdone
    | quiet k l hl => exact absurd hdone' hdone

theorem covered_after {t : τ} {as : List (Turn cfg.numCpus κ)}
    (h : Machine.Along (move clk) Attended as (initial cfg t)) : Covered (after clk t as) := by
  have hboth : Ending (after clk t as) ∧ Covered (after clk t as) := by
    apply h.invariant (I := fun s => Ending s ∧ Covered s) _ ⟨ending_initial t, nofun⟩
    intro a s hs hatt
    rcases Machine.stutter_cases (step clk) a s with hstep | hstay
    · refine ⟨hs.1.step hstep, ?_⟩
      rcases step_cases hstep with ⟨c, -, hc⟩ | ⟨ha, hld⟩ | ⟨i, k, -, -, hclock⟩
      · exact hc.covered hs.2
      · exact hld.covered hs.1 (hatt ha) hs.2
      · rw [move, hclock]
        exact hs.2
    · rw [move, hstay]
      exact hs
  exact hboth.2

/-- A process that waits, and no CPU that will ask for it. -/
structure Deserted (s : State cfg τ) : Prop where
  /-- The variable is set. -/
  done : s.done = true
  /-- A process waits. -/
  waits : ¬ QueuesEmpty s
  /-- Every CPU has stopped or is to stop. -/
  atTest : ∀ c, AtTest (s.cpu c) ∨ Left (s.cpu c)

theorem Deserted.step {a : Turn cfg.numCpus κ} (h : Deserted s) (hend : Ending s)
    (hs : step clk a s = some s') :
    Deserted s' := by
  have hno : ∀ {c l p t}, s.cpu c = ⟨l, p, t⟩ →
      l = .recheck ∧ p = none ∨ l = .detach ∨ l = .exited := by
    intro c l p t hx
    have hc := h.atTest c
    rwa [hx] at hc
  rcases step_cases hs with ⟨c, -, hc⟩ | ⟨-, hld⟩ | ⟨i, k, -, -, rfl⟩
  · cases hc with
    | load t hx => simpa using hno hx
    | replace p t hx => simpa using hno hx
    | rotate p t hx => simpa using hno hx
    | free p t hx hpc => simpa using hno hx
    | put p t hx hpc ht => simpa using hno hx
    | keep p t hx hpc ht => simpa using hno hx
    | run p t hx => simpa using hno hx
    | quiet k x hx =>
      refine ⟨h.done, h.waits, ?_⟩
      intro c'
      rw [setCpu_cpu]
      split_ifs
      · -- at the test or past the loop, the CPU can only stop
        have hc := h.atTest c
        have hdone := h.done
        generalize s.cpu c = y at hx hc
        cases hx with
        | stop t hd => exact .inr (.inl rfl)
        | skip t hd => rw [hd] at hdone; cases hdone
        | exit p t hk => exact .inr (.inr rfl)
        | _ => simp [AtTest, Left] at hc
      · exact h.atTest c'
  · obtain ⟨k, l, rfl⟩ := hld.of_done hend h.done
    exact ⟨h.done, h.waits, h.atTest⟩
  · exact ⟨h.done, h.waits, h.atTest⟩

/-- The store made while a process is unattended leaves it for ever. -/
theorem deserted_of_not_attended {t : τ} {as : List (Turn cfg.numCpus κ)}
    (h : ¬ Machine.Along (move clk) Attended as (initial cfg t)) : Deserted (after clk t as) := by
  obtain ⟨pre, a, post, rfl, -, hnot⟩ := Machine.exists_of_not_along h
  simp only [Attended, not_forall, not_not] at hnot
  obtain ⟨rfl, hhead, hi, hwaits, htest⟩ := hnot
  have hend := ending_after clk t pre
  rw [after] at hend
  rw [after, Machine.run_append, Machine.run_cons]
  generalize Machine.run (move clk) pre (initial cfg t) = s at hhead hi hwaits htest hend
  have hstore : step clk .ld s = some { s with done := true, ld := .detach } := by
    simp only [step, ldRoutine, hhead, dif_neg hi]
  have hmove : move clk .ld s = { s with done := true, ld := .detach } :=
    Machine.stutter_of_some hstore
  rw [hmove]
  have hstart : Deserted { s with done := true, ld := .detach } :=
    ⟨rfl, hwaits, fun c => .inl (htest c)⟩
  have hrun := @Machine.stutter_invariant _ _ (step clk) (fun s => Ending s ∧ Deserted s)
    (fun _ _ _ h hs => ⟨h.1.step hs, h.2.step h.1 hs⟩) post _ ⟨hend.step hstore, hstart⟩
  exact hrun.2

/-- When all CPUs have left, with `done` set and the queues empty, everything has been run. -/
theorem executed_of_exited (hfits : cfg.Fits) {t : τ} {as : List (Turn cfg.numCpus κ)}
    (hdone : (after clk t as).done = true) (hexit : ∀ c, ((after clk t as).cpu c).loc = .exited)
    (hempty : QueuesEmpty (after clk t as)) (p : cfg.Proc) :
    executed (after clk t as) p = cfg.text p := by
  have h := inv_after clk t as
  have hend := ending_after clk t as
  have hdropped := dropped_after clk hfits t as
  generalize after clk t as = s at hdone hexit hempty h hend hdropped
  have hqueued : (queued s.mlq).count p = 0 := by
    rw [queued, Finset.sum_eq_zero fun i _ => by rw [hempty i]; rfl]
    exact Multiset.count_zero p
  have hholders : holders s p = 0 := by
    apply Finset.sum_eq_zero
    intro c _
    have hnone := (hend.left c (.inr (hexit c))).2
    rw [held, hexit c, hnone]
    rfl
  have hpending : pending s p = 0 := by
    have hi := hend.loaded hdone
    have hp := p.isLt
    rw [pending, if_neg (by omega)]
  have hone := h.copies_eq p
  rw [copies, hqueued, hholders, hpending, hdropped, List.count_nil] at hone
  have hfreed : p ∈ s.freed := List.count_pos_iff.mp (by omega)
  rw [h.executed_eq, h.finished p hfreed, Config.size, List.take_length]

/-- When all have stopped with the queues empty, everything has been run. -/
theorem executed_of_stopped (hfits : cfg.Fits) {t : τ} {as : List (Turn cfg.numCpus κ)}
    (hstop : Stopped (after clk t as)) (hempty : QueuesEmpty (after clk t as)) (p : cfg.Proc) :
    executed (after clk t as) p = cfg.text p :=
  executed_of_exited hfits ((ending_after clk t as).done_iff.mpr (.inr hstop.1)) hstop.2 hempty p

/-- **When something is left at the end**: in a run that has come to the end of the loader and
of every CPU, everything has been run and the queues are empty just if, when the loader set
`done`, it was not the case that a process waited and every CPU was between a `get_proc`
that returned `NULL` and its look at `done`. -/
theorem nothing_left_iff (cfg : Config ι) (hfits : cfg.Fits) (clk : Clock (Party cfg.numCpus) κ τ)
    (t : τ) (as : List (Turn cfg.numCpus κ)) (hstop : Stopped (after clk t as)) :
    ((∀ p, executed (after clk t as) p = cfg.text p) ∧ QueuesEmpty (after clk t as)) ↔
      Machine.Along (move clk) Attended as (initial cfg t) := by
  constructor
  · rintro ⟨-, hempty⟩
    by_contra hnot
    exact (deserted_of_not_attended hnot).waits hempty
  · intro h
    have hend := ending_after clk t as
    have hempty : QueuesEmpty (after clk t as) := by
      rcases covered_after h (hend.done_iff.mpr (.inr hstop.1)) with hempty | ⟨c, hc⟩
      · exact hempty
      · exact absurd (.inr (hstop.2 c)) hc.1
    exact ⟨fun p => executed_of_stopped hfits hstop hempty p, hempty⟩

/-- One CPU, and two processes of one instruction each, the second of which arrives in
slot `1`. -/
def twoProcesses : Config Unit where
  timeSlot := 1
  numCpus := 1
  numProcesses := 2
  text := fun _ => [()]
  prio := fun _ => 0
  startTime := fun p => p

theorem twoProcesses_fits : twoProcesses.Fits := ⟨by decide, by decide⟩

/-- The turns up to slot `1`: the loader has loaded both processes and handed in the first,
and the CPU is to run it. -/
def firstSlot : List (Turn 1 (Timer.Internal (Party 1))) :=
  List.replicate 6 .ld ++ List.replicate 3 (.cpu 0) ++ List.replicate 7 (.clock .timer)

/-- In slot `1` the CPU finishes the first process and asks for another; then the loader hands
in the second and sets `done`; then the CPU looks at `done`. -/
def missedTurns : List (Turn 1 (Timer.Internal (Party 1))) :=
  firstSlot ++ List.replicate 4 (.cpu 0) ++ List.replicate 5 .ld ++ List.replicate 2 (.cpu 0)

/-- In slot `1` the loader hands in the second process before the CPU asks for it. -/
def metTurns : List (Turn 1 (Timer.Internal (Party 1))) :=
  firstSlot ++ List.replicate 5 .ld ++ List.replicate 6 (.cpu 0) ++
    List.replicate 7 (.clock .timer) ++ List.replicate 6 (.cpu 0)

/-- A run in which all stop with everything run. -/
theorem nothing_left_iff_met :
    ((∀ p, executed (simulate twoProcesses metTurns) p = twoProcesses.text p) ∧
        QueuesEmpty (simulate twoProcesses metTurns)) ↔
      Machine.Along (move (osClock twoProcesses)) Attended metTurns
        (initial twoProcesses Timer.startTimer) :=
  nothing_left_iff twoProcesses twoProcesses_fits (osClock twoProcesses) Timer.startTimer metTurns
    (by decide +kernel)

/-- A run in which the loader and the CPU stop and the second process is still queued. -/
theorem last_process_left :
    twoProcesses.Fits ∧ Stopped (simulate twoProcesses missedTurns) ∧
      ¬ ((∀ p, executed (simulate twoProcesses missedTurns) p = twoProcesses.text p) ∧
        QueuesEmpty (simulate twoProcesses missedTurns)) := by
  refine ⟨twoProcesses_fits, by decide +kernel, ?_⟩
  rintro ⟨-, hempty⟩
  revert hempty
  decide +kernel

/-! ### The idle CPU -/

/-- All work is over, and CPU `c` is at the top of its loop with no process. -/
def IdleAtTop (c : Fin cfg.numCpus) (s : State cfg τ) : Prop :=
  s.done = true ∧ QueuesEmpty s ∧ (∀ c', held (s.cpu c') = none) ∧ (s.cpu c).loc = .top ∧
    (s.cpu c).proc = none

instance (c : Fin cfg.numCpus) (s : State cfg τ) : Decidable (IdleAtTop c s) :=
  inferInstanceAs (Decidable (s.done = true ∧ QueuesEmpty s ∧ (∀ c', held (s.cpu c') = none) ∧
    (s.cpu c).loc = .top ∧ (s.cpu c).proc = none))

/-- All work is over, and CPU `c` is at the top of its loop, or in the `next_slot` it goes
to from there, with no process. -/
structure Idling (c : Fin cfg.numCpus) (s : State cfg τ) : Prop where
  /-- The variable is set. -/
  done : s.done = true
  /-- No process waits. -/
  empty : QueuesEmpty s
  /-- No CPU holds one. -/
  free : ∀ c', held (s.cpu c') = none
  /-- The CPU has none. -/
  proc : (s.cpu c).proc = none
  /-- Where it is. -/
  loc : (s.cpu c).loc = .top ∨ (s.cpu c).loc = .idle ∨ (s.cpu c).loc = .idleWait

theorem Idling.setCpu {c c' : Fin cfg.numCpus} {x : Cpu cfg.Proc} (h : Idling c s)
    (hheld : held x = none)
    (hx : c' = c → x.proc = none ∧ (x.loc = .top ∨ x.loc = .idle ∨ x.loc = .idleWait)) :
    Idling c (setCpu s c' x) where
  done := h.done
  empty := h.empty
  free := by
    intro d
    rw [setCpu_cpu]
    split_ifs
    · exact hheld
    · exact h.free d
  proc := by
    rw [setCpu_cpu]
    split_ifs with hc
    · exact (hx hc.symm).1
    · exact h.proc
  loc := by
    rw [setCpu_cpu]
    split_ifs with hc
    · exact (hx hc.symm).2
    · exact h.loc

theorem Idling.fetch {c c' : Fin cfg.numCpus} {l : CpuLoc} {t : ℤ} (h : Idling c s)
    (hl : l = .idle ∨ l = .recheck) (hc : c' = c → l = .idle) : Idling c (fetch c' l t s) := by
  rcases fetch_cases c' l t s with ⟨hne, -⟩ | ⟨-, hempty, hcpu⟩
  · exact absurd h.empty hne
  · have h' : Idling c { s with mlq := (getProc s.mlq).2 } := ⟨h.done, hempty, h.free, h.proc, h.loc⟩
    simp only [Simulator.fetch, setCpu_cpu, if_true] at hcpu
    rw [Simulator.fetch, hcpu]
    refine h'.setCpu ?_ fun hcc => ⟨rfl, .inr (.inl (hc hcc))⟩
    rcases hl with rfl | rfl <;> rfl

theorem Idling.step {c : Fin cfg.numCpus} {a : Turn cfg.numCpus κ} (h : Idling c s) (hend : Ending s)
    (hs : step clk a s = some s') : Idling c s' := by
  have hno : ∀ {c' p t}, (s.cpu c' = ⟨.top, some p, t⟩ ∨ s.cpu c' = ⟨.run, some p, t⟩) → False := by
    rintro c' p t (hx | hx) <;> have hfree := h.free c' <;> rw [hx] at hfree <;> cases hfree
  have hloc : ∀ {c' l p t}, s.cpu c' = ⟨l, p, t⟩ → c' = c → l = .top ∨ l = .idle ∨ l = .idleWait := by
    rintro c' l p t hx rfl
    have := h.loc
    rwa [hx] at this
  rcases step_cases hs with ⟨c', -, hc⟩ | ⟨-, hld⟩ | ⟨i, k, -, -, rfl⟩
  · cases hc with
    | load t hx => exact h.fetch (.inl rfl) fun _ => rfl
    | replace p t hx => exact h.fetch (.inr rfl) fun hcc => by simpa using hloc hx hcc
    | rotate p t hx => exact h.fetch (.inr rfl) fun hcc => by simpa using hloc hx hcc
    | free p t hx hpc => exact (hno (.inl hx)).elim
    | put p t hx hpc ht => exact (hno (.inl hx)).elim
    | keep p t hx hpc ht => exact (hno (.inl hx)).elim
    | run p t hx => exact (hno (.inr hx)).elim
    | quiet k x hx =>
      have h' : Idling c { s with clock := k } := ⟨h.done, h.empty, h.free, h.proc, h.loc⟩
      refine h'.setCpu (hx.held_eq.trans (h.free c')) ?_
      rintro rfl
      have hproc := h.proc
      have hl := h.loc
      generalize s.cpu c' = y at hx hproc hl
      cases hx with
      | idle p t hk => exact ⟨hproc, .inr (.inr rfl)⟩
      | wake p t hk => exact ⟨hproc, .inl rfl⟩
      | _ => simp at hl
  · obtain ⟨k, l, rfl⟩ := hld.of_done hend h.done
    exact ⟨h.done, h.empty, h.free, h.proc, h.loc⟩
  · exact ⟨h.done, h.empty, h.free, h.proc, h.loc⟩

/-- **An idle CPU never stops**: once the work is over, a CPU that is at the top of its loop
with no process goes round it for ever, through the `next_slot` of its first branch, and
never comes to the branch that stops it. -/
theorem idle_cpu_never_stops (cfg : Config ι) (clk : Clock (Party cfg.numCpus) κ τ) (t : τ)
    (as : List (Turn cfg.numCpus κ)) (c : Fin cfg.numCpus) (h : IdleAtTop c (after clk t as))
    (bs : List (Turn cfg.numCpus κ)) :
    ((after clk t (as ++ bs)).cpu c).loc = .top ∨ ((after clk t (as ++ bs)).cpu c).loc = .idle ∨
      ((after clk t (as ++ bs)).cpu c).loc = .idleWait := by
  obtain ⟨hdone, hempty, hheld, htop, hproc⟩ := h
  have hend := ending_after clk t as
  have hstart : Idling c (after clk t as) := ⟨hdone, hempty, hheld, hproc, .inl htop⟩
  have hrun := @Machine.stutter_invariant _ _ (step clk) (fun s => Ending s ∧ Idling c s)
    (fun _ _ _ h hs => ⟨h.1.step hs, h.2.step h.1 hs⟩) bs _ ⟨hend, hstart⟩
  rw [after, Machine.run_append]
  exact hrun.2.loc

/-- Two CPUs and one process of one instruction. -/
def oneProcess : Config Unit where
  timeSlot := 1
  numCpus := 2
  numProcesses := 1
  text := fun _ => [()]
  prio := fun _ => 0
  startTime := fun _ => 0

/-- CPU `1` asks for a process before there is one; the loader hands in the process and
leaves; CPU `0` runs it in the next slot and stops. -/
def workTurns : List (Turn 2 (Timer.Internal (Party 2))) :=
  .cpu 1 :: List.replicate 5 .ld ++ List.replicate 3 (.cpu 0) ++
    .cpu 1 :: List.replicate 9 (.clock .timer) ++
    .cpu 1 :: List.replicate 6 (.cpu 0)

/-- CPU `1` goes round its loop. -/
def roundTurns : List (Turn 2 (Timer.Internal (Party 2))) :=
  List.replicate 2 (.cpu 1) ++ List.replicate 9 (.clock .timer) ++ [.cpu 1]

theorem idle_cpu_never_stops_work :
    ((simulate oneProcess (workTurns ++ roundTurns)).cpu ⟨1, by decide⟩).loc = .top ∨
      ((simulate oneProcess (workTurns ++ roundTurns)).cpu ⟨1, by decide⟩).loc = .idle ∨
      ((simulate oneProcess (workTurns ++ roundTurns)).cpu ⟨1, by decide⟩).loc = .idleWait :=
  idle_cpu_never_stops oneProcess (osClock oneProcess) Timer.startTimer workTurns ⟨1, by decide⟩
    (by decide +kernel)
    roundTurns

/-- CPU `1` is at the top of its loop when the work is over; it goes once round the loop,
through a whole call of `next_slot` and past no `detach_event`, and is there again. -/
theorem idle_cpu_loops :
    IdleAtTop ⟨1, by decide⟩ (simulate oneProcess workTurns) ∧
      (∀ bs ∈ roundTurns.inits,
        ((simulate oneProcess (workTurns ++ bs)).cpu ⟨1, by decide⟩).loc ≠ .detach ∧
        ((simulate oneProcess (workTurns ++ bs)).cpu ⟨1, by decide⟩).loc ≠ .exited) ∧
      ((simulate oneProcess (workTurns ++ roundTurns)).clock.dev (.cpu ⟨1, by decide⟩)).completed =
        ((simulate oneProcess workTurns).clock.dev (.cpu ⟨1, by decide⟩)).completed + 1 ∧
      IdleAtTop ⟨1, by decide⟩ (simulate oneProcess (workTurns ++ roundTurns)) := by
  decide +kernel

end Ossim.Simulator
