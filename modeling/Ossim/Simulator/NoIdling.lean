import Ossim.Machine.ListScheduling
import Ossim.Sched.WorkConserving
import Ossim.Simulator.Arrival
import Ossim.Simulator.Shutdown

/-!
# No CPU idles while a process waits

A CPU that finds no process leaves the slot that begins next to the others. From then until
that slot begins, each process that is put back is put back by a CPU which then asks for one
itself; so no more processes come to wait than the loader hands in meanwhile (`Tight`). A CPU that
does get one has one that has not finished (`Supplied`).
-/

namespace Ossim.Simulator

open Sched

variable {ι κ τ : Type*} {cfg : Config ι}

/-! ### What a CPU has where it is -/

/-- A place past a call of `get_proc` that returned `NULL`. -/
def CpuLoc.Empty : CpuLoc → Prop
  | .idle | .idleWait | .detach | .exited => True
  | _ => False

/-- A place where the process is still to be run. -/
def CpuLoc.Bound : CpuLoc → Prop
  | .slot | .slotWait | .run => True
  | _ => False

/-- A CPU has a process where it needs one, and one that has not finished. -/
structure Stocked (pc : cfg.Proc → ℕ) (x : Cpu cfg.Proc) : Prop where
  /-- There is none where `get_proc` returned none. -/
  empty : x.loc.Empty → x.proc = none
  /-- There is one where it is to be run. -/
  bound : x.loc.Bound → x.proc ≠ none
  /-- What is to be run has not finished. -/
  unfinished : x.loc.Bound ∨ x.loc = .recheck → ∀ p, x.proc = some p → pc p < cfg.size p

/-- A process waits in a ready queue. -/
def Waits {α : Type*} (m : Mlq α) (p : α) : Prop := ∃ i, p ∈ (m.mlqReadyQueue i).toList

/-- Every process that waits or is to be run has instructions left. -/
structure Supplied (s : State cfg τ) : Prop where
  /-- Each CPU has what it needs. -/
  cpus : ∀ c, Stocked s.pc (s.cpu c)
  /-- What waits has not finished. -/
  waiting : ∀ p, Waits s.mlq p → s.pc p < cfg.size p

theorem not_waits_start {α : Type*} (p : α) : ¬ Waits (start : Mlq α) p := by
  rintro ⟨i, hi⟩
  simp [start, initScheduler] at hi

theorem supplied_initial (t : τ) : Supplied (initial cfg t) where
  cpus := fun _ => ⟨fun _ => rfl, False.elim, by rintro (h | h) <;> cases h⟩
  waiting := fun p hp => absurd hp (not_waits_start p)

/-! ### What `get_proc` and `put_proc` do to what waits -/

section
variable {α : Type*} {m : Mlq α} {p q : α}

theorem waits_iff : Waits m p ↔ p ∈ queued m := by rw [mem_queued, Waits]

/-- What `get_proc` returns has waited, and what waits after it has waited before. -/
theorem waits_of_getProc (h : (getProc m).1 = some p ∨ Waits (getProc m).2 p) : Waits m p := by
  rw [waits_iff] at h ⊢
  rw [← queued_getProc m, Multiset.mem_add]
  refine h.imp_left fun h => ?_
  rw [h]
  exact Multiset.mem_coe.mpr (List.mem_singleton.mpr rfl)

/-- What waits after a process has been handed in is that process or has waited before. -/
theorem waits_of_enlist {prio : α → ℕ} (h : Waits (enlist prio (some p) m) q) :
    q = p ∨ Waits m q := by
  obtain ⟨i, hi⟩ := h
  rw [toList_enlist] at hi
  split_ifs at hi
  · rcases List.mem_append.mp hi with hi | hi
    · exact .inr ⟨i, hi⟩
    · exact .inl (List.mem_singleton.mp hi)
  · exact .inr ⟨i, hi⟩

end

/-! ### Every turn -/

variable {clk : Clock (Party cfg.numCpus) κ τ} {s s' : State cfg τ} {c : Fin cfg.numCpus}

theorem stocked_of_none {pc : cfg.Proc → ℕ} {x : Cpu cfg.Proc} (hproc : x.proc = none)
    (hloc : ¬ x.loc.Bound) : Stocked pc x where
  empty := fun _ => hproc
  bound := fun h => absurd h hloc
  unfinished := by
    intro _ p hp
    rw [hproc] at hp
    cases hp

/-- A place that asks nothing. -/
theorem stocked_of_loc {pc : cfg.Proc → ℕ} {x : Cpu cfg.Proc}
    (h : x.loc = .top ∨ x.loc = .reaped ∨ x.loc = .requeued) : Stocked pc x := by
  refine ⟨?_, ?_, ?_⟩
  · intro hx
    rcases h with h | h | h <;> rw [h] at hx <;> exact hx.elim
  · intro hx
    rcases h with h | h | h <;> rw [h] at hx <;> exact hx.elim
  · intro hx
    rcases h with h | h | h <;> rw [h] at hx <;> exact (hx.elim id nofun).elim

/-- A process that is to be run. -/
theorem stocked_of_some {pc : cfg.Proc → ℕ} {x : Cpu cfg.Proc} {p : cfg.Proc}
    (hproc : x.proc = some p) (hpc : pc p < cfg.size p) (hloc : ¬ x.loc.Empty) :
    Stocked pc x where
  empty := fun h => absurd h hloc
  bound := fun _ h => nomatch hproc.symm.trans h
  unfinished := by
    intro _ q hq
    obtain rfl := Option.some.inj (hproc.symm.trans hq)
    exact hpc

theorem Supplied.setCpu (h : Supplied s) {x : Cpu cfg.Proc} (hx : Stocked s.pc x) :
    Supplied (setCpu s c x) where
  cpus := by
    intro c'
    rw [setCpu_cpu]
    split_ifs
    · exact hx
    · exact h.cpus c'
  waiting := h.waiting

theorem Supplied.fetch (h : Supplied s) {l : CpuLoc} (hl : l = .idle ∨ l = .recheck) (t : ℤ) :
    Supplied (fetch c l t s) := by
  have hget : Supplied { s with mlq := (getProc s.mlq).2 } := by
    exact ⟨h.cpus, fun p hp => h.waiting p (waits_of_getProc (.inr hp))⟩
  apply hget.setCpu
  cases hp : (getProc s.mlq).1 with
  | none => exact stocked_of_none rfl (by rcases hl with rfl | rfl <;> exact id)
  | some p => exact stocked_of_some rfl (h.waiting p (waits_of_getProc (.inl hp))) id

/-- Handing in a process that has not finished. -/
theorem Supplied.enlist (h : Supplied s) {p : cfg.Proc} (hp : s.pc p < cfg.size p) :
    ∀ q, Waits (Sched.enlist cfg.prio (some p) s.mlq) q → s.pc q < cfg.size q := by
  intro q hq
  rcases waits_of_enlist hq with rfl | hq
  · exact hp
  · exact h.waiting q hq

theorem Quiet.stocked {done : Bool} {k k' : τ} {x x' : Cpu cfg.Proc}
    (h : Quiet clk c done k x k' x') {pc : cfg.Proc → ℕ} (hx : Stocked pc x) : Stocked pc x' := by
  cases h with
  | dispatch p t => exact stocked_of_some rfl (hx.unfinished (.inr rfl) p rfl) id
  | stop t h => exact stocked_of_none rfl id
  | skip t h => exact stocked_of_none rfl id
  | idle p t h => exact stocked_of_none (hx.empty trivial) id
  | wake p t h => exact stocked_of_loc (.inl rfl)
  | slot p t h => exact ⟨False.elim, fun _ => hx.bound trivial, fun _ => hx.unfinished (.inl trivial)⟩
  | begin p t h => exact ⟨False.elim, fun _ => hx.bound trivial, fun _ => hx.unfinished (.inl trivial)⟩
  | exit p t h => exact stocked_of_none (hx.empty trivial) id

/-- A process that is held is not waiting, and no other CPU has it to run. -/
theorem Supplied.run (h : Supplied s) (hinv : Inv s) {p : cfg.Proc} {t : ℤ}
    (hx : s.cpu c = ⟨.run, some p, t⟩) :
    Supplied (Simulator.setCpu (Simulator.run clk c p s) c ⟨.top, some p, t - 1⟩) := by
  have hheld : held (s.cpu c) = some p := by rw [hx]; rfl
  have hcount : (queued s.mlq).count p = 0 := by
    have hone := hinv.copies_eq p
    have hpos := holders_pos hheld
    rw [copies] at hone
    omega
  have hother : ∀ q, q ≠ p → (Simulator.run clk c p s).pc q = s.pc q := by
    intro q hq
    unfold Simulator.run
    split_ifs
    · rfl
    · exact Function.update_of_ne hq _ _
  have hmlq : (Simulator.run clk c p s).mlq = s.mlq := by
    unfold Simulator.run
    split_ifs <;> rfl
  refine ⟨?_, ?_⟩
  · intro c'
    rw [setCpu_cpu]
    split_ifs with hc
    · exact stocked_of_loc (.inl rfl)
    · rw [run_cpu]
      obtain ⟨hempty, hbound, hunfinished⟩ := h.cpus c'
      refine ⟨hempty, hbound, ?_⟩
      intro hloc q hq
      have hheld' : held (s.cpu c') = some q := by
        unfold held
        split
        next heq => rw [heq] at hloc; rcases hloc with hf | hf <;> cases hf
        next heq => rw [heq] at hloc; rcases hloc with hf | hf <;> cases hf
        next => exact hq
      have hqp : q ≠ p := by
        rintro rfl
        exact hc (hinv.holder_eq hheld hheld')
      show (Simulator.run clk c p s).pc q < _
      rw [hother q hqp]
      exact hunfinished hloc q hq
  · intro q hq
    have hq' : Waits s.mlq q := by rw [← hmlq]; exact hq
    have hqp : q ≠ p := by
      rintro rfl
      rw [waits_iff, ← Multiset.count_pos] at hq'
      omega
    show (Simulator.run clk c p s).pc q < _
    rw [hother q hqp]
    exact h.waiting q hq'

theorem CpuTurn.supplied (hs : CpuTurn clk c s s') (hinv : Inv s) (h : Supplied s) :
    Supplied s' := by
  cases hs with
  | load t hx => exact h.fetch (.inl rfl) t
  | replace p t hx => exact h.fetch (.inr rfl) 0
  | rotate p t hx => exact h.fetch (.inr rfl) t
  | free p t hx hpc =>
    have hset := h.setCpu (c := c) (x := ⟨.reaped, some p, t⟩) (stocked_of_loc (.inr (.inl rfl)))
    exact ⟨hset.cpus, hset.waiting⟩
  | put p t hx hpc ht =>
    have hlt : s.pc p < cfg.size p := lt_of_le_of_ne (hinv.pc_le p) hpc
    have hput : Supplied (putBack p s) := ⟨h.cpus, h.enlist hlt⟩
    exact hput.setCpu (stocked_of_loc (.inr (.inr rfl)))
  | keep p t hx hpc ht =>
    exact h.setCpu (stocked_of_some rfl (lt_of_le_of_ne (hinv.pc_le p) hpc) id)
  | run p t hx => exact h.run hinv hx
  | quiet k x hq =>
    have hk : Supplied { s with clock := k } := ⟨h.cpus, h.waiting⟩
    exact hk.setCpu (hq.stocked (h.cpus c))

theorem LdTurn.supplied (hs : LdTurn clk s s') (hsize : ∀ p, 0 < cfg.size p) (hinv : Inv s)
    (h : Supplied s) : Supplied s' := by
  cases hs with
  | load hi hloc =>
    have hpc : Function.update s.pc ⟨s.i, hi⟩ 0 = s.pc := by
      rw [← hinv.pc_eq_zero ⟨s.i, hi⟩ le_rfl, Function.update_eq_self]
    refine ⟨?_, ?_⟩
    · show ∀ c, Stocked (Function.update s.pc ⟨s.i, hi⟩ 0) (s.cpu c)
      rw [hpc]
      exact h.cpus
    · show ∀ p, Waits s.mlq p → Function.update s.pc ⟨s.i, hi⟩ 0 p < _
      rw [hpc]
      exact h.waiting
  | store hi hloc => exact ⟨h.cpus, h.waiting⟩
  | look hi hloc => exact ⟨h.cpus, h.waiting⟩
  | add hi hloc =>
    refine ⟨h.cpus, h.enlist ?_⟩
    rw [hinv.pc_eq_zero ⟨s.i, hi⟩ le_rfl]
    exact hsize _
  | quiet k l hq => exact ⟨h.cpus, h.waiting⟩

theorem Supplied.step {a : Turn cfg.numCpus κ} (h : Supplied s) (hsize : ∀ p, 0 < cfg.size p)
    (hinv : Inv s) (hs : Simulator.step clk a s = some s') : Supplied s' := by
  rcases step_cases hs with ⟨c, -, hc⟩ | ⟨-, hld⟩ | ⟨i, k, -, -, rfl⟩
  · exact hc.supplied hinv h
  · exact hld.supplied hsize hinv h
  · exact ⟨h.cpus, h.waiting⟩

/-! ### How many processes wait -/

/-- CPU `c` has found no process since the slot began, and leaves out the next one. -/
def FoundNone (s : OsState cfg) (c : Fin cfg.numCpus) : Prop :=
  (s.cpu c).loc = .idle ∨ ((s.cpu c).loc = .recheck ∧ (s.cpu c).proc = none) ∨
    ((s.cpu c).loc = .idleWait ∧ begun s c = s.clock.time + 1)

/-- How many CPUs have put a process back and are to ask for one. -/
def requeued (s : State cfg τ) : ℕ := ∑ c, if (s.cpu c).loc = .requeued then 1 else 0

/-- How many processes the loader has handed in since the slot began. -/
def arriving (s : OsState cfg) : ℕ :=
  (Finset.univ.filter fun p : cfg.Proc => (p : ℕ) < s.i ∧ latest cfg (p + 1) = s.clock.time).card

/-- Where a CPU has found no process, no more wait than have been put back by CPUs that are still
to ask for one, or have been handed in since. -/
def Tight (s : OsState cfg) : Prop :=
  (∃ c, FoundNone s c) → (queued s.mlq).card ≤ requeued s + arriving s

theorem requeued_setCpu (s : State cfg τ) (c : Fin cfg.numCpus) (x : Cpu cfg.Proc) :
    requeued (setCpu s c x) + (if (s.cpu c).loc = .requeued then 1 else 0) =
      requeued s + if x.loc = .requeued then 1 else 0 :=
  Machine.total_update (fun x : Cpu cfg.Proc => if x.loc = .requeued then 1 else 0) s.cpu c x

/-- `get_proc` takes one process, or there is none. -/
theorem card_getProc {α : Type*} (m : Mlq α) :
    (queued m).card = (queued (getProc m).2).card + if (getProc m).1.isSome then 1 else 0 := by
  rw [← queued_getProc m, Multiset.card_add, add_comm]
  cases (getProc m).1 <;> rfl

theorem card_eq_zero_of_getProc {α : Type*} {m : Mlq α} (h : (getProc m).1 = none) :
    (queued (getProc m).2).card = 0 := by
  obtain ⟨hiff, hsame, -⟩ := getProc_workConserving m
  rw [queued, (hsame h).1]
  simp [hiff.mp h]

theorem card_enlist_le {α : Type*} (prio : α → ℕ) (p : α) (m : Mlq α) :
    (queued (enlist prio (some p) m)).card ≤ (queued m).card + 1 := by
  by_cases hroom : HasRoom prio m p
  · rw [queued_enlist hroom, Multiset.card_cons]
  · rw [queued_enlist_of_full hroom]
    exact Nat.le_succ _

section
variable {s s' : OsState cfg} {c : Fin cfg.numCpus}

/-- A turn that is not CPU `c`'s and not the timer's finds it as it was. -/
theorem FoundNone.of_frame (h : FoundNone s' c) (hcpu : s'.cpu c = s.cpu c)
    (hbegun : begun s' c = begun s c) (htime : s'.clock.time = s.clock.time) : FoundNone s c := by
  rwa [FoundNone, hcpu, hbegun, htime] at h

theorem Tight.fetch (h : Tight s) {l : CpuLoc} {t : ℤ} (hl : l ≠ .requeued) :
    Tight (fetch c l t s) := by
  rintro ⟨c', hc'⟩
  have hloc : (if (getProc s.mlq).1.isNone then l else .recheck : CpuLoc) ≠ .requeued := by
    split_ifs
    · exact hl
    · exact nofun
  have htotal := requeued_setCpu { s with mlq := (getProc s.mlq).2 } c
    ⟨if (getProc s.mlq).1.isNone then l else .recheck, (getProc s.mlq).1, t⟩
  have hcard := card_getProc s.mlq
  rw [if_neg hloc] at htotal
  show (queued (getProc s.mlq).2).card ≤ requeued (Simulator.fetch c l t s) + arriving s
  cases hget : (getProc s.mlq).1 with
  | none =>
    rw [card_eq_zero_of_getProc hget]
    exact Nat.zero_le _
  | some p =>
    -- the CPU that finds none is another one
    have hne : c' ≠ c := by
      rintro rfl
      rw [FoundNone, Simulator.fetch, setCpu_self, hget] at hc'
      rcases hc' with hc' | ⟨-, hc'⟩ | ⟨hc', -⟩ <;> cases hc'
    have hbound := h ⟨c', hc'.of_frame (setCpu_of_ne _ _ hne) rfl rfl⟩
    have hrequeued : requeued { s with mlq := (getProc s.mlq).2 } = requeued s := rfl
    rw [hget, Option.isSome_some, if_pos rfl] at hcard
    rw [hrequeued] at htotal
    change requeued (Simulator.fetch c l t s) + _ = _ at htotal
    split_ifs at htotal <;> omega

/-- A CPU that finds none after a turn without `get_proc` or the timer found none before it, or
is another one. -/
theorem Quiet.foundNone {k : Timer.State (Party cfg.numCpus)} {x : Cpu cfg.Proc}
    (h : Quiet (osClock cfg) c s.done s.clock (s.cpu c) k x)
    (hx : FoundNone (setCpu { s with clock := k } c x) c) : FoundNone s c := by
  rw [FoundNone, setCpu_self] at hx
  rw [FoundNone]
  generalize s.cpu c = y at h
  generalize s.clock = k₀ at h
  cases h with
  | dispatch p t => rcases hx with hx | ⟨hx, -⟩ | ⟨hx, -⟩ <;> cases hx
  | stop t hd => rcases hx with hx | ⟨hx, -⟩ | ⟨hx, -⟩ <;> cases hx
  | skip t hd => exact .inr (.inl ⟨rfl, rfl⟩)
  | idle p t hk => exact .inl rfl
  | wake p t hk => rcases hx with hx | ⟨hx, -⟩ | ⟨hx, -⟩ <;> cases hx
  | slot p t hk => rcases hx with hx | ⟨hx, -⟩ | ⟨hx, -⟩ <;> cases hx
  | begin p t hk => rcases hx with hx | ⟨hx, -⟩ | ⟨hx, -⟩ <;> cases hx
  | exit p t hk => rcases hx with hx | ⟨hx, -⟩ | ⟨hx, -⟩ <;> cases hx

theorem Quiet.not_requeued {done : Bool} {k k' : Timer.State (Party cfg.numCpus)}
    {x x' : Cpu cfg.Proc} (h : Quiet (osClock cfg) c done k x k' x') :
    x.loc ≠ .requeued ∧ x'.loc ≠ .requeued := by
  cases h <;> simp

/-- A CPU moves to where nothing says that it found no process, and the queues stay. -/
theorem Tight.setCpu (h : Tight s) {x : Cpu cfg.Proc}
    (hx : FoundNone (Simulator.setCpu s c x) c → FoundNone s c)
    (hloc : (s.cpu c).loc ≠ .requeued) : Tight (Simulator.setCpu s c x) := by
  rintro ⟨c', hc'⟩
  have hbound : (queued s.mlq).card ≤ requeued s + arriving s := by
    by_cases hcc : c' = c
    · subst hcc
      exact h ⟨c', hx hc'⟩
    · exact h ⟨c', hc'.of_frame (setCpu_of_ne _ _ hcc) rfl rfl⟩
  have htotal := requeued_setCpu s c x
  rw [if_neg hloc] at htotal
  show (queued s.mlq).card ≤ requeued (Simulator.setCpu s c x) + arriving s
  omega

/-- A CPU that puts its process back is to ask for one. -/
theorem Tight.put (h : Tight s) {p : cfg.Proc} {t : ℤ} (hx : s.cpu c = ⟨.top, some p, t⟩) :
    Tight (Simulator.setCpu (putBack p s) c ⟨.requeued, some p, t⟩) := by
  rintro ⟨c', hc'⟩
  have hne : c' ≠ c := by
    rintro rfl
    rw [FoundNone, setCpu_self] at hc'
    rcases hc' with hc' | ⟨hc', -⟩ | ⟨hc', -⟩ <;> cases hc'
  have hbound := h ⟨c', hc'.of_frame (setCpu_of_ne _ _ hne) rfl rfl⟩
  have htotal := requeued_setCpu (putBack p s) c ⟨.requeued, some p, t⟩
  have hcard := card_enlist_le cfg.prio p s.mlq
  have hrequeued : requeued (putBack p s) = requeued s := rfl
  have htop : ((putBack p s).cpu c).loc ≠ .requeued := by
    show (s.cpu c).loc ≠ .requeued
    rw [hx]
    exact nofun
  rw [if_neg htop, if_pos rfl, hrequeued] at htotal
  show (queued (enlist cfg.prio (some p) s.mlq)).card ≤ requeued (Simulator.setCpu _ c _) + arriving s
  omega

theorem CpuTurn.tight (hs : CpuTurn (osClock cfg) c s s') (h : Tight s) :
    Tight s' := by
  have hnone : ∀ {s : OsState cfg} {x : Cpu cfg.Proc},
      (x.loc = .reaped ∨ x.loc = .top ∨ (x.loc = .recheck ∧ x.proc ≠ none)) →
        ¬ FoundNone (Simulator.setCpu s c x) c := by
    intro s x hx hfound
    rw [FoundNone, setCpu_self] at hfound
    rcases hx with hx | hx | ⟨hx, hproc⟩ <;> rw [hx] at hfound
    · rcases hfound with h | ⟨h, -⟩ | ⟨h, -⟩ <;> cases h
    · rcases hfound with h | ⟨h, -⟩ | ⟨h, -⟩ <;> cases h
    · rcases hfound with h | ⟨-, h⟩ | ⟨h, -⟩
      · cases h
      · exact hproc h
      · cases h
  cases hs with
  | load t hx => exact h.fetch nofun
  | replace p t hx => exact h.fetch nofun
  | rotate p t hx => exact h.fetch nofun
  | free p t hx hpc =>
    exact h.setCpu (x := ⟨.reaped, some p, t⟩) (fun hf => absurd hf (hnone (.inl rfl)))
      (by rw [hx]; exact nofun)
  | put p t hx hpc ht => exact h.put hx
  | keep p t hx hpc ht =>
    exact h.setCpu (fun hf => absurd hf (hnone (.inr (.inr ⟨rfl, nofun⟩)))) (by rw [hx]; exact nofun)
  | run p t hx =>
    have hrun : Tight (Simulator.run (osClock cfg) c p s) := by
      unfold Simulator.run
      split_ifs <;> exact h
    refine hrun.setCpu (fun hf => absurd hf (hnone (.inr (.inl rfl)))) ?_
    rw [run_cpu, hx]
    exact nofun
  | quiet k x hq =>
    obtain ⟨hdev, htime⟩ := hq.clock_eq
    obtain ⟨hloc, hloc'⟩ := hq.not_requeued
    rintro ⟨c', hc'⟩
    have hbound : (queued s.mlq).card ≤ requeued s + arriving s := by
      by_cases hcc : c' = c
      · subst hcc
        exact h ⟨c', hq.foundNone hc'⟩
      · refine h ⟨c', hc'.of_frame (setCpu_of_ne _ _ hcc) ?_ htime⟩
        exact congrArg Timer.Device.started (hdev _ fun he => hcc (Party.cpu.inj he))
    have htotal := requeued_setCpu { s with clock := k } c x
    have harriving : arriving (Simulator.setCpu { s with clock := k } c x) = arriving s := by
      simp only [arriving]
      exact congrArg Finset.card (Finset.filter_congr fun p _ => by rw [← htime]; rfl)
    have hrequeued : requeued { s with clock := k } = requeued s := rfl
    rw [if_neg hloc, if_neg hloc', hrequeued] at htotal
    rw [harriving]
    show (queued s.mlq).card ≤ _
    omega

/-- The process that the loader hands in has arrived in this slot. -/
theorem arriving_add (hi : s.i < cfg.numProcesses) (htime : latest cfg (s.i + 1) = s.clock.time) :
    arriving { handOver ⟨s.i, hi⟩ s with i := s.i + 1, ld := .head } = arriving s + 1 := by
  have hinsert : (Finset.univ.filter fun p : cfg.Proc =>
        (p : ℕ) < s.i + 1 ∧ latest cfg (p + 1) = s.clock.time) =
      insert ⟨s.i, hi⟩ (Finset.univ.filter fun p : cfg.Proc =>
        (p : ℕ) < s.i ∧ latest cfg (p + 1) = s.clock.time) := by
    ext p
    simp only [Finset.mem_filter, Finset.mem_univ, true_and, Finset.mem_insert, Fin.ext_iff]
    constructor
    · rintro ⟨hlt, heq⟩
      rcases Nat.lt_succ_iff_lt_or_eq.mp hlt with hlt | hlt
      · exact .inr ⟨hlt, heq⟩
      · exact .inl hlt
    · rintro (heq | ⟨hlt, heq⟩)
      · rw [heq]
        exact ⟨Nat.lt_succ_self _, htime⟩
      · exact ⟨Nat.lt_succ_of_lt hlt, heq⟩
  show (Finset.univ.filter fun p : cfg.Proc =>
    (p : ℕ) < s.i + 1 ∧ latest cfg (p + 1) = s.clock.time).card = _
  rw [hinsert, Finset.card_insert_of_notMem (by simp)]
  rfl

theorem LdTurn.tight (hs : LdTurn (osClock cfg) s s') (hin : InStep s) (hon : OnTime s)
    (h : Tight s) : Tight s' := by
  cases hs with
  | load hi hloc => exact h
  | store hi hloc => exact h
  | look hi hloc => exact h
  | add hi hloc =>
    rintro ⟨c, hc⟩
    have hbound := h ⟨c, hc⟩
    have hcard := card_enlist_le cfg.prio ⟨s.i, hi⟩ s.mlq
    have hdue := hon.due
    rw [hloc] at hdue
    have htime : latest cfg (s.i + 1) = s.clock.time := by
      rw [hon.time_eq hin (by rw [hloc]; rfl)]
      exact hdue.symm
    rw [arriving_add hi htime]
    show (queued (enlist cfg.prio (some ⟨s.i, hi⟩) s.mlq)).card ≤ requeued s + _
    omega
  | quiet k l hq =>
    obtain ⟨hdev, htime⟩ := hq.clock_eq
    rintro ⟨c, hc⟩
    have hbound := h ⟨c, hc.of_frame rfl (congrArg Timer.Device.started (hdev _ nofun)) htime⟩
    have harriving : arriving { s with clock := k, ld := l } = arriving s := by
      simp only [arriving]
      exact congrArg Finset.card (Finset.filter_congr fun p _ => by rw [← htime])
    rw [harriving]
    exact hbound

/-- The timer's own step, where it counts a slot. -/
structure Ticks (s : OsState cfg) (k : Timer.State (Party cfg.numCpus)) : Prop where
  /-- The slot is counted. -/
  time_eq : k.time = s.clock.time + 1
  /-- A CPU whose device has not detached is in `next_slot`, and has begun the slot. -/
  arrived : ∀ c, (s.cpu c).loc.phase ≠ .detached →
    (s.cpu c).loc.phase = .inside ∧ begun s c = s.clock.time + 1
  /-- The devices are as they were. -/
  dev : ∀ c, (k.dev (.cpu c)).started = begun s c

theorem ticks_of_time_ne {i : Timer.Internal (Party cfg.numCpus)}
    {k : Timer.State (Party cfg.numCpus)} (hin : InStep s)
    (hk : Timer.internal (attached cfg.numCpus) i s.clock = some k)
    (htime : k.time ≠ s.clock.time) : Ticks s k where
  time_eq := by
    rcases @Timer.time_eq_or_scan_nil _ _ _ (.internal i) _ _ hk with heq | ⟨heq, -⟩
    · exact absurd heq htime
    · exact heq
  arrived := by
    intro c hc
    have hloc : (s.clock.dev (.cpu c)).loc ≠ .detached := by
      rw [← hin.coupled c] at hc
      exact fun h => hc (Timer.Device.phase_eq_detached_iff.mpr h)
    obtain ⟨hwait, -, -, hstarted, -⟩ :=
      hin.timer.arrived_of_time_ne (a := .internal i) hk htime hloc
    refine ⟨?_, hstarted⟩
    rw [← hin.coupled c, Timer.Device.phase]
    rcases hwait with h | h <;> rw [h] <;> rfl
  dev := fun c => ((Timer.internal_spec hk).1 (.cpu c)).2

/-- When a slot is counted no CPU has found no process in it. -/
theorem Ticks.not_foundNone {k : Timer.State (Party cfg.numCpus)} (h : Ticks s k)
    (c : Fin cfg.numCpus) : ¬ FoundNone { s with clock := k } c := by
  intro hfound
  rcases hfound with hloc | ⟨hloc, -⟩ | ⟨hloc, hbegun⟩
  · have hin := (h.arrived c (by rw [show (s.cpu c).loc = .idle from hloc]; exact nofun)).1
    rw [show (s.cpu c).loc = .idle from hloc] at hin
    cases hin
  · have hin := (h.arrived c (by rw [show (s.cpu c).loc = .recheck from hloc]; exact nofun)).1
    rw [show (s.cpu c).loc = .recheck from hloc] at hin
    cases hin
  · have hin := (h.arrived c (by rw [show (s.cpu c).loc = .idleWait from hloc]; exact nofun)).2
    have hdev := h.dev c
    have htime := h.time_eq
    change (k.dev (.cpu c)).started = k.time + 1 at hbegun
    omega

theorem Tight.step {a : OsTurn cfg} (h : Tight s) (hin : InStep s) (hon : OnTime s)
    (hs : Simulator.step (osClock cfg) a s = some s') : Tight s' := by
  rcases step_cases hs with ⟨c, -, hc⟩ | ⟨-, hld⟩ | ⟨i, k, -, hk, rfl⟩
  · exact hc.tight h
  · exact hld.tight hin hon h
  · rintro ⟨c, hc⟩
    by_cases htime : k.time = s.clock.time
    · have hdev := ((Timer.internal_spec hk).1 (.cpu c)).2
      have hbound := h ⟨c, hc.of_frame rfl hdev htime⟩
      have harriving : arriving { s with clock := k } = arriving s := by
        simp only [arriving]
        exact congrArg Finset.card (Finset.filter_congr fun p _ => by rw [← htime])
      rw [harriving]
      exact hbound
    · exact absurd hc ((ticks_of_time_ne hin hk htime).not_foundNone c)

end

end Ossim.Simulator
