import Ossim.Machine.Script
import Ossim.Simulator.Slots

/-!
# A quantum

What a CPU does with a process from `Dispatched` to `free` or `put_proc`, whatever the other
threads do meanwhile: it has a script (`stint`), which is the next `time_slot` instructions of
the process, or all that are left, one in each of as many slots one after another, and then
the end of it. `ahead` says how much of the script is left wherever the CPU is in its loop.
-/

namespace Ossim.Simulator

open Machine Sched

variable {ι κ τ : Type*} {cfg : Config ι}

/-- What a CPU does with a process. -/
inductive Event (cfg : Config ι) where
  /-- It says that it has dispatched it. -/
  | dispatch (p : cfg.Proc)
  /-- It runs an instruction of it. -/
  | exec (e : Executed cfg)
  /-- It frees it. -/
  | free (p : cfg.Proc)
  /-- It puts it back. -/
  | put (p : cfg.Proc)

/-- The instruction run. -/
def Event.executed : Event cfg → Option (Executed cfg)
  | .exec e => some e
  | _ => none

/-- The process freed. -/
def Event.freed : Event cfg → Option cfg.Proc
  | .free p => some p
  | _ => none

/-- What CPU `c` does with its process in its next turn. -/
def cpuEvent (clk : Clock (Party cfg.numCpus) κ τ) (c : Fin cfg.numCpus) (s : State cfg τ) :
    List (Event cfg) :=
  match s.cpu c with
  | ⟨.recheck, some p, timeLeft⟩ => if timeLeft = 0 then [.dispatch p] else []
  | ⟨.run, some p, _⟩ =>
    if h : s.pc p ≥ cfg.size p then []
    else
      [.exec ⟨c, p, (cfg.text p).get ⟨s.pc p, Nat.lt_of_not_le h⟩, clk.currentTime s.clock⟩]
  | ⟨.top, some p, timeLeft⟩ =>
    if s.pc p = cfg.size p then [.free p] else if timeLeft = 0 then [.put p] else []
  | _ => []

/-- What CPU `c` does with its process in a turn that may be another's. -/
def event (clk : Clock (Party cfg.numCpus) κ τ) (c : Fin cfg.numCpus) (a : Turn cfg.numCpus κ)
    (s : State cfg τ) : List (Event cfg) :=
  match a with
  | .cpu c' => if c' = c then cpuEvent clk c s else []
  | _ => []

/-- The turn is one that CPU `c` does not lose. -/
def Moves (clk : Clock (Party cfg.numCpus) κ τ) (c : Fin cfg.numCpus) (a : Turn cfg.numCpus κ)
    (s : State cfg τ) : Prop :=
  match a with
  | .cpu c' => c' = c ∧ (cpuRoutine clk c s).isSome
  | _ => False

instance (clk : Clock (Party cfg.numCpus) κ τ) (c : Fin cfg.numCpus) (a : Turn cfg.numCpus κ)
    (s : State cfg τ) : Decidable (Moves clk c a s) :=
  match a with
  | .cpu c' => inferInstanceAs (Decidable (c' = c ∧ (cpuRoutine clk c s).isSome))
  | .ld => .isFalse id
  | .clock _ => .isFalse id

variable {clk : Clock (Party cfg.numCpus) κ τ} {c : Fin cfg.numCpus} {p : cfg.Proc}

/-- The events of a CPU are what its turns do: the instructions go to the log, the process
freed is freed, and the one put back is handed to `put_proc`. -/
theorem cpuEvent_spec {s s' : State cfg τ} (hs : step clk (.cpu c) s = some s') :
    s'.log = s.log ++ (cpuEvent clk c s).filterMap Event.executed ∧
      s'.freed = (cpuEvent clk c s).filterMap Event.freed ++ s.freed ∧
      ∀ p, .put p ∈ cpuEvent clk c s → s'.mlq = putProc cfg.prio (some p) s.mlq := by
  cases cpuTurn_of_cpuRoutine hs with
  | load t hx => simp [cpuEvent, hx, fetch, setCpu]
  | replace q t hx => simp [cpuEvent, hx, fetch, setCpu]
  | rotate q t hx => simp [cpuEvent, hx, fetch, setCpu]
  | free q t hx hpc => simp [cpuEvent, hx, hpc, setCpu, Event.executed, Event.freed]
  | put q t hx hpc ht => simp [cpuEvent, hx, hpc, ht, setCpu, putBack, Event.executed, Event.freed]
  | keep q t hx hpc ht => simp [cpuEvent, hx, hpc, ht, setCpu]
  | run q t hx =>
    simp only [cpuEvent, hx, setCpu, run]
    split_ifs <;> simp [Event.executed, Event.freed]
  | quiet k x hq =>
    generalize hx : s.cpu c = y at hq
    generalize s.clock = k₀ at hq
    cases hq with
    | dispatch q t =>
      simp only [cpuEvent, hx, setCpu]
      split_ifs <;> simp [Event.executed, Event.freed]
    | _ => simp [cpuEvent, hx, setCpu]

/-! ### The script -/

/-- Running process `p` from `pc` on with `t` slots left, from slot `T` on, and the end of it. -/
def rest (c : Fin cfg.numCpus) (p : cfg.Proc) (T pc : ℕ) (t : ℤ) : List (Event cfg) :=
  ((((cfg.text p).drop pc).take t.toNat).zipIdx T).map (fun x => .exec ⟨c, p, x.1, x.2⟩) ++
    [if (cfg.size p - pc : ℕ) ≤ t then .free p else .put p]

/-- What CPU `c` does with process `p` that it has dispatched in slot `T`. -/
def stint (c : Fin cfg.numCpus) (p : cfg.Proc) (T pc : ℕ) : List (Event cfg) :=
  .dispatch p :: rest c p (T + 1) pc cfg.timeSlot

/-- A process that has finished is freed. -/
theorem rest_of_finished {T pc : ℕ} {t : ℤ} (hpc : pc = cfg.size p) (ht : 0 ≤ t) :
    rest c p T pc t = [.free p] := by
  subst hpc
  rw [rest, if_pos (by omega), Config.size, List.drop_length, List.take_nil, List.zipIdx_nil,
    List.map_nil, List.nil_append]

/-- A process that has not, and whose quantum is over, is put back. -/
theorem rest_of_expired {T pc : ℕ} (hpc : pc < cfg.size p) : rest c p T pc 0 = [.put p] := by
  rw [rest, if_neg (by omega), Int.toNat_zero, List.take_zero, List.zipIdx_nil, List.map_nil,
    List.nil_append]

/-- A process with slots left runs its next instruction first. -/
theorem rest_cons {T pc : ℕ} {t : ℤ} (hpc : pc < cfg.size p) (ht : 0 < t) :
    rest c p T pc t =
      .exec ⟨c, p, (cfg.text p).get ⟨pc, hpc⟩, T⟩ :: rest c p (T + 1) (pc + 1) (t - 1) := by
  have htake : t.toNat = (t - 1).toNat + 1 := by omega
  have hend : (cfg.size p - pc : ℕ) ≤ t ↔ (cfg.size p - (pc + 1) : ℕ) ≤ t - 1 := by omega
  rw [rest, rest, List.drop_eq_getElem_cons hpc, htake, List.take_succ_cons, List.zipIdx_cons,
    List.map_cons, List.cons_append, List.get_eq_getElem, if_congr hend rfl rfl]
  rfl

/-- What a CPU that is to run process `p` next, or is done with it, has of its script to go:
where the CPU is, the `pc` of the process, and how many slots the CPU has begun. -/
def ahead (c : Fin cfg.numCpus) (p : cfg.Proc) (x : Cpu cfg.Proc) (pc begun : ℕ) :
    List (Event cfg) :=
  match x.loc with
  | .recheck =>
    if x.timeLeft = 0 then stint c p begun pc else rest c p (begun + 1) pc x.timeLeft
  | .slotWait | .run => rest c p begun pc x.timeLeft
  | _ => rest c p (begun + 1) pc x.timeLeft

/-- How many turns of its own that takes: five for an instruction. -/
def turnsLeft (cfg : Config ι) (p : cfg.Proc) (x : Cpu cfg.Proc) (pc : ℕ) : ℕ :=
  let quantum := fun t : ℤ => 5 * min t.toNat (cfg.size p - pc)
  match x.loc with
  | .recheck => quantum (if x.timeLeft = 0 then cfg.timeSlot else x.timeLeft)
  | .slot => quantum x.timeLeft - 1
  | .slotWait => quantum x.timeLeft - 2
  | .run => quantum x.timeLeft - 3
  | _ => quantum x.timeLeft + 1

/-- A CPU at work on process `p`. -/
inductive AtWork (p : cfg.Proc) (pc : ℕ) : Cpu cfg.Proc → Prop where
  /-- It is to run it in the next slot. -/
  | recheck (t : ℤ) (ht : 0 ≤ t) (hpc : pc < cfg.size p) : AtWork p pc ⟨.recheck, some p, t⟩
  /-- It is about to enter `next_slot`. -/
  | slot (t : ℤ) (ht : 0 < t) (hpc : pc < cfg.size p) : AtWork p pc ⟨.slot, some p, t⟩
  /-- It is in `next_slot`. -/
  | slotWait (t : ℤ) (ht : 0 < t) (hpc : pc < cfg.size p) : AtWork p pc ⟨.slotWait, some p, t⟩
  /-- It is about to run it. -/
  | run (t : ℤ) (ht : 0 < t) (hpc : pc < cfg.size p) : AtWork p pc ⟨.run, some p, t⟩
  /-- It has run it. -/
  | top (t : ℤ) (ht : 0 ≤ t) (hpc : pc ≤ cfg.size p) : AtWork p pc ⟨.top, some p, t⟩

theorem AtWork.held_eq {pc : ℕ} {x : Cpu cfg.Proc} (h : AtWork p pc x) : held x = some p := by
  cases h <;> rfl

theorem AtWork.turnsLeft_pos {pc : ℕ} {x : Cpu cfg.Proc} (hts : 1 ≤ cfg.timeSlot)
    (h : AtWork p pc x) : 0 < turnsLeft cfg p x pc := by
  cases h with
  | recheck t ht hpc =>
    simp only [turnsLeft]
    split_ifs <;> omega
  | slot t ht hpc | slotWait t ht hpc | run t ht hpc =>
    simp only [turnsLeft]
    omega
  | top t ht hpc => exact Nat.succ_pos _

/-- What a turn of its own that is not the last does to a CPU at work: the CPU, the `pc` of its
process and the slots it has begun, what it does, and these three again. -/
inductive Advance (c : Fin cfg.numCpus) (p : cfg.Proc) :
    Cpu cfg.Proc → ℕ → ℕ → List (Event cfg) → Cpu cfg.Proc → ℕ → ℕ → Prop where
  /-- It dispatches the process, or goes on with it. -/
  | dispatch (t : ℤ) (pc b : ℕ) :
    Advance c p ⟨.recheck, some p, t⟩ pc b (if t = 0 then [.dispatch p] else [])
      ⟨.slot, some p, if t = 0 then cfg.timeSlot else t⟩ pc b
  /-- It enters `next_slot`. -/
  | slot (t : ℤ) (pc b : ℕ) :
    Advance c p ⟨.slot, some p, t⟩ pc b [] ⟨.slotWait, some p, t⟩ pc (b + 1)
  /-- It returns. -/
  | begin (t : ℤ) (pc b : ℕ) :
    Advance c p ⟨.slotWait, some p, t⟩ pc b [] ⟨.run, some p, t⟩ pc b
  /-- It runs an instruction. -/
  | run (t : ℤ) (pc b : ℕ) (hpc : pc < cfg.size p) :
    Advance c p ⟨.run, some p, t⟩ pc b [.exec ⟨c, p, (cfg.text p).get ⟨pc, hpc⟩, b⟩]
      ⟨.top, some p, t - 1⟩ (pc + 1) b
  /-- It keeps the process. -/
  | keep (t : ℤ) (pc b : ℕ) (hpc : pc ≠ cfg.size p) (ht : t ≠ 0) :
    Advance c p ⟨.top, some p, t⟩ pc b [] ⟨.recheck, some p, t⟩ pc b

/-- Each turn takes what it does off the script. -/
theorem Advance.script {x x' : Cpu cfg.Proc} {pc b pc' b' : ℕ} {out : List (Event cfg)}
    (h : Advance c p x pc b out x' pc' b') (hts : 1 ≤ cfg.timeSlot) (hwork : AtWork p pc x) :
    out ++ ahead c p x' pc' b' = ahead c p x pc b ∧ AtWork p pc' x' ∧
      turnsLeft cfg p x' pc' + 1 = turnsLeft cfg p x pc := by
  cases h with
  | dispatch t pc b =>
    obtain ⟨_, ht, hpc⟩ := hwork
    by_cases h0 : t = 0
    · subst h0
      refine ⟨rfl, .slot _ (by rw [if_pos rfl]; omega) hpc, ?_⟩
      simp only [turnsLeft, if_true]
      omega
    · refine ⟨by simp [ahead, h0], .slot _ (by rw [if_neg h0]; omega) hpc, ?_⟩
      simp only [turnsLeft, if_neg h0]
      omega
  | slot t pc b =>
    cases hwork with
    | slot _ ht hpc =>
      refine ⟨rfl, .slotWait _ ht hpc, ?_⟩
      simp only [turnsLeft]
      omega
  | begin t pc b =>
    cases hwork with
    | slotWait _ ht hpc =>
      refine ⟨rfl, .run _ ht hpc, ?_⟩
      simp only [turnsLeft]
      omega
  | run t pc b hpc =>
    cases hwork with
    | run _ ht _ =>
      refine ⟨(rest_cons hpc ht).symm, .top _ (by omega) hpc, ?_⟩
      simp only [turnsLeft]
      omega
  | keep t pc b hpc ht =>
    cases hwork with
    | top _ ht' hpc' =>
      refine ⟨by simp [ahead, ht], .recheck _ ht' (by omega), ?_⟩
      simp only [turnsLeft, if_neg ht]

/-! ### The CPU keeps to it -/

/-- CPU `c` is at work on process `p`. -/
structure Engaged (c : Fin cfg.numCpus) (p : cfg.Proc) (s : OsState cfg) : Prop where
  /-- The process is in one place. -/
  inv : Inv s
  /-- The timer is in step. -/
  inStep : InStep s
  /-- The CPU is at work. -/
  atWork : AtWork p (s.pc p) (s.cpu c)

section
variable {s s' : OsState cfg}

/-- A turn of another thread changes nothing. -/
theorem Engaged.undisturbed {a : OsTurn cfg} (h : Engaged c p s) (ha : a ≠ .cpu c)
    (hs : step (osClock cfg) a s = some s') :
    Engaged c p s' ∧ s'.cpu c = s.cpu c ∧ s'.pc p = s.pc p ∧ begun s' c = begun s c := by
  obtain ⟨hcpu, hpc, hbegun⟩ := Simulator.undisturbed h.inv ha hs
  have hpc := hpc p h.atWork.held_eq
  refine ⟨⟨h.inv.step hs, h.inStep.step hs, ?_⟩, hcpu, hpc, hbegun⟩
  rw [hcpu, hpc]
  exact h.atWork

/-- A turn of its own is the last, or takes the CPU on. -/
theorem Engaged.own (h : Engaged c p s) (hs : cpuRoutine (osClock cfg) c s = some s') :
    cpuEvent (osClock cfg) c s = ahead c p (s.cpu c) (s.pc p) (begun s c) ∨
      Advance c p (s.cpu c) (s.pc p) (begun s c) (cpuEvent (osClock cfg) c s) (s'.cpu c) (s'.pc p)
        (begun s' c) := by
  have hwork := h.atWork
  have htime := h.inStep.time_eq (c := c)
  rw [cpuEvent]
  generalize hx : s.cpu c = x at hwork
  rw [cpuRoutine, hx] at hs
  cases hwork with
  | recheck t ht hpc =>
    obtain rfl := Option.some.inj hs
    rw [setCpu_self]
    exact .inr (.dispatch t _ _)
  | slot t ht hpc =>
    obtain ⟨k, hk, rfl⟩ := Option.map_eq_some_iff.mp hs
    obtain ⟨-, -, hstarted, -⟩ := Timer.nextSlot_spec hk
    have hbegun : begun (setCpu { s with clock := k } c ⟨.slotWait, some p, t⟩) c = begun s c + 1 :=
      hstarted
    rw [setCpu_self, hbegun]
    exact .inr (.slot t _ _)
  | slotWait t ht hpc =>
    obtain ⟨k, hk, rfl⟩ := Option.map_eq_some_iff.mp hs
    obtain ⟨-, -, hstarted, -⟩ := Timer.leave_spec hk
    have hbegun : begun (setCpu { s with clock := k } c ⟨.run, some p, t⟩) c = begun s c :=
      hstarted
    rw [setCpu_self, hbegun]
    exact .inr (.begin t _ _)
  | run t ht hpc =>
    obtain rfl := Option.some.inj hs
    -- the slot it runs in is the last one it has begun
    have hslot : (osClock cfg).currentTime s.clock = begun s c := htime (by rw [hx]; rfl)
    have hnext : (setCpu (run (osClock cfg) c p s) c ⟨.top, some p, t - 1⟩).pc p = s.pc p + 1 := by
      simp [setCpu, run, Nat.not_le.mpr hpc]
    have hbegun : begun (setCpu (run (osClock cfg) c p s) c ⟨.top, some p, t - 1⟩) c =
        begun s c := by
      simp [begun, setCpu, run, Nat.not_le.mpr hpc]
    rw [setCpu_self, hnext, hbegun]
    simp only [dif_neg (Nat.not_le.mpr hpc), hslot]
    exact .inr (.run t _ _ hpc)
  | top t ht hpc =>
    by_cases hfin : s.pc p = cfg.size p
    · left
      simp only [if_pos hfin]
      exact (rest_of_finished hfin ht).symm
    · by_cases h0 : t = 0
      · left
        subst h0
        simp only [if_neg hfin, if_true]
        exact (rest_of_expired (by omega)).symm
      · simp only [if_neg hfin, if_neg h0] at hs ⊢
        obtain rfl := Option.some.inj hs
        rw [setCpu_self]
        exact .inr (.keep t _ _ hfin h0)

theorem cpuEvent_of_none {s : State cfg τ} (h : cpuRoutine clk c s = none) :
    cpuEvent clk c s = [] := by
  unfold cpuRoutine at h
  rw [cpuEvent]
  split at h <;> rename_i hx <;> rw [hx]
  · split_ifs at h
  · cases h
  · cases h

/-- The CPU keeps to its script. -/
theorem scripted (hts : 1 ≤ cfg.timeSlot) (c : Fin cfg.numCpus) (p : cfg.Proc) :
    Scripted (move (osClock cfg)) (event (osClock cfg) c) (Moves (osClock cfg) c) (Engaged c p)
      (fun s => ahead c p (s.cpu c) (s.pc p) (begun s c))
      (fun s => turnsLeft cfg p (s.cpu c) (s.pc p)) where
  left_pos := fun s h => h.atWork.turnsLeft_pos hts
  other := by
    intro a s h hnot
    by_cases ha : a = .cpu c
    · -- the CPU loses its turn
      subst ha
      have hnone : cpuRoutine (osClock cfg) c s = none :=
        Option.not_isSome_iff_eq_none.mp fun hsome => hnot ⟨rfl, hsome⟩
      have hstay : move (osClock cfg) (.cpu c) s = s := stutter_of_none hnone
      rw [hstay]
      refine ⟨?_, h, rfl, rfl⟩
      rw [event, if_pos rfl, cpuEvent_of_none hnone]
    · have hout : event (osClock cfg) c a s = [] := by
        cases a with
        | cpu c' => exact if_neg fun hc => ha (congrArg Turn.cpu hc)
        | ld => rfl
        | clock k => rfl
      rcases stutter_cases (step (osClock cfg)) a s with hs | hs
      · obtain ⟨h', hcpu, hpc, hbegun⟩ := h.undisturbed ha hs
        refine ⟨hout, h', ?_, ?_⟩
        · rw [move, hcpu, hpc, hbegun]
        · rw [move, hcpu, hpc]
      · rw [move, hs]
        exact ⟨hout, h, rfl, rfl⟩
  own := by
    intro a s h hmine
    cases a with
    | ld => exact hmine.elim
    | clock k => exact hmine.elim
    | cpu c' =>
      obtain ⟨rfl, hsome⟩ := hmine
      obtain ⟨s', hs⟩ := Option.isSome_iff_exists.mp hsome
      have hmove : move (osClock cfg) (.cpu c') s = s' := stutter_of_some hs
      rw [hmove, event, if_pos rfl]
      rcases h.own hs with hlast | hnext
      · exact .inl hlast
      · obtain ⟨hout, hwork, hleft⟩ := hnext.script hts h.atWork
        exact .inr ⟨hout, ⟨h.inv.step (a := .cpu c') hs, h.inStep.step (a := .cpu c') hs, hwork⟩,
          hleft⟩

end

/-! ### A process obtained is dispatched -/

/-- A CPU without a process has no time left, but for one that has just freed its process. -/
def Blank {α : Type*} (x : Cpu α) : Prop := held x = none → x.loc ≠ .reaped → x.timeLeft = 0

theorem Blank.timeLeft_eq {α : Type*} {x : Cpu α} {l : CpuLoc} {q : Option α} {t : ℤ}
    (h : Blank x) (hx : x = ⟨l, q, t⟩) (hnone : held ⟨l, q, t⟩ = none) (hl : l ≠ .reaped) :
    t = 0 := by
  subst hx
  exact h hnone hl

theorem CpuTurn.blank {s s' : State cfg τ} (hs : CpuTurn clk c s s') (h : Blank (s.cpu c)) :
    Blank (s'.cpu c) := by
  have hfetch : ∀ l, Blank ((fetch c l 0 s).cpu c) := by
    intro l _ _
    rw [fetch, setCpu_self]
  cases hs with
  | load t hx =>
    obtain rfl := h.timeLeft_eq hx rfl (by decide)
    exact hfetch _
  | replace q t hx => exact hfetch _
  | rotate q t hx =>
    obtain rfl := h.timeLeft_eq hx rfl (by decide)
    exact hfetch _
  | free q t hx hpc => exact fun _ hloc => absurd (by simp [setCpu]) hloc
  | put q t hx hpc ht =>
    intro _ _
    rw [setCpu_self]
    exact ht
  | keep q t hx hpc ht =>
    rw [setCpu_self]
    intro hnone
    cases hnone
  | run q t hx =>
    rw [setCpu_self]
    intro hnone
    cases hnone
  | quiet k x hq =>
    rw [setCpu_self]
    generalize s.cpu c = y at hq h
    generalize s.clock = k₀ at hq
    cases hq with
    | dispatch q t =>
      intro hnone
      cases hnone
    | _ =>
      intro hnone _
      exact h hnone (by simp)

/-- A process that the CPU obtains arrives with no time left, which is to say that it is to be
dispatched. -/
theorem CpuTurn.obtains {s s' : State cfg τ} (hs : CpuTurn clk c s s') (h : Blank (s.cpu c))
    (hnone : held (s.cpu c) = none) (hp : held (s'.cpu c) = some p) :
    s'.cpu c = ⟨.recheck, some p, 0⟩ := by
  have hfetch : ∀ l, held ((fetch c l 0 s).cpu c) = some p → (l = .idle ∨ l = .recheck) →
      (fetch c l 0 s).cpu c = ⟨.recheck, some p, 0⟩ := by
    intro l hp hl
    rw [fetch, setCpu_self] at hp ⊢
    cases hget : (getProc s.mlq).1 with
    | none =>
      rw [hget] at hp
      rcases hl with rfl | rfl <;> cases hp
    | some q =>
      rw [hget] at hp
      obtain rfl : q = p := Option.some.inj hp
      rfl
  cases hs with
  | load t hx =>
    obtain rfl := h.timeLeft_eq hx rfl (by decide)
    exact hfetch _ hp (.inl rfl)
  | replace q t hx => exact hfetch _ hp (.inr rfl)
  | rotate q t hx =>
    obtain rfl := h.timeLeft_eq hx rfl (by decide)
    exact hfetch _ hp (.inr rfl)
  | free q t hx hpc => rw [hx] at hnone; cases hnone
  | put q t hx hpc ht => rw [hx] at hnone; cases hnone
  | keep q t hx hpc ht => rw [hx] at hnone; cases hnone
  | run q t hx => rw [hx] at hnone; cases hnone
  | quiet k x hq =>
    rw [setCpu_self, hq.held_eq, hnone] at hp
    cases hp

variable {s s' : OsState cfg}

/-- The invariant holds of every CPU in every state reached. -/
theorem blank_after (as : List (OsTurn cfg)) (c : Fin cfg.numCpus) :
    Blank ((simulate cfg as).cpu c) := by
  have h : Inv (simulate cfg as) ∧ ∀ c, Blank ((simulate cfg as).cpu c) := by
    refine @stutter_invariant _ _ (step (osClock cfg)) (fun s => Inv s ∧ ∀ c, Blank (s.cpu c)) ?_ as
      _ ⟨inv_initial _, fun _ _ _ => rfl⟩
    rintro a s s' ⟨hinv, h⟩ hs
    refine ⟨hinv.step hs, ?_⟩
    intro c
    by_cases ha : a = .cpu c
    · subst ha
      exact (cpuTurn_of_cpuRoutine hs).blank (h c)
    · rw [(undisturbed hinv ha hs).cpu_eq]
      exact h c
  exact h.2 c

theorem obtains_step (as : List (OsTurn cfg)) (a : OsTurn cfg)
    (hnone : held ((simulate cfg as).cpu c) = none)
    (hp : held ((simulate cfg (as ++ [a])).cpu c) = some p) :
    (simulate cfg (as ++ [a])).cpu c = ⟨.recheck, some p, 0⟩ := by
  have hinv : Inv (simulate cfg as) := inv_after _ _ as
  have hlast : simulate cfg (as ++ [a]) = move (osClock cfg) a (simulate cfg as) :=
    run_concat as a _
  rw [hlast] at hp ⊢
  rcases stutter_cases (step (osClock cfg)) a (simulate cfg as) with hs | hs
  · by_cases ha : a = .cpu c
    · subst ha
      exact (cpuTurn_of_cpuRoutine hs).obtains (blank_after as c) hnone hp
    · rw [move, (undisturbed hinv ha hs).cpu_eq, hnone] at hp
      cases hp
  · rw [move, hs, hnone] at hp
    cases hp

/-! ### Whatever the turns -/

/-- What CPU `c` does with its processes in the turns `bs`. -/
def events (c : Fin cfg.numCpus) (bs : List (OsTurn cfg)) (s : OsState cfg) : List (Event cfg) :=
  output (move (osClock cfg)) (event (osClock cfg) c) bs s

/-- How many turns CPU `c` makes among the turns `bs`. -/
def turns (c : Fin cfg.numCpus) (bs : List (OsTurn cfg)) (s : OsState cfg) : ℕ :=
  count (move (osClock cfg)) (Moves (osClock cfg) c) bs s

/-- **Quantum accounting.** A CPU that dispatches a process which has not finished does what its
script says, whatever the turns that follow: it has done the beginning of the script, or all
of it, and all of it once it has made five turns for each instruction. A CPU that obtains a
process dispatches it. And no process runs twice in a slot, on whatever CPUs. -/
theorem quantum (cfg : Config ι) (hts : 1 ≤ cfg.timeSlot) (as : List (OsTurn cfg)) :
    (∀ c p, (simulate cfg as).cpu c = ⟨.recheck, some p, 0⟩ →
      (simulate cfg as).pc p < cfg.size p → ∀ bs,
        (events c bs (simulate cfg as) <+:
            stint c p (simulate cfg as).clock.time ((simulate cfg as).pc p) ∨
          stint c p (simulate cfg as).clock.time ((simulate cfg as).pc p) <+:
            events c bs (simulate cfg as)) ∧
        (5 * min cfg.timeSlot.toNat (cfg.size p - (simulate cfg as).pc p) ≤
            turns c bs (simulate cfg as) →
          stint c p (simulate cfg as).clock.time ((simulate cfg as).pc p) <+:
            events c bs (simulate cfg as))) ∧
      (∀ c p a, held ((simulate cfg as).cpu c) = none →
        held ((simulate cfg (as ++ [a])).cpu c) = some p →
          (simulate cfg (as ++ [a])).cpu c = ⟨.recheck, some p, 0⟩) ∧
      (simulate cfg as).log.Pairwise fun e e' => e.proc = e'.proc → e.time < e'.time := by
  refine ⟨?_, ?_, (spaced_after as).spaced⟩
  · intro c p hcpu hpc bs
    have hinStep := inStep_after as
    have hengaged : Engaged c p (simulate cfg as) := by
      refine ⟨inv_after _ _ as, hinStep, ?_⟩
      rw [hcpu]
      exact .recheck 0 le_rfl hpc
    have htime : (simulate cfg as).clock.time = begun (simulate cfg as) c :=
      hinStep.time_eq (by rw [hcpu]; rfl)
    obtain ⟨hbegins, hall⟩ := (scripted hts c p).output bs hengaged
    rw [hcpu] at hbegins hall
    rw [htime]
    exact ⟨hbegins, hall⟩
  · intro c p a
    exact obtains_step as a

/-- Two CPUs and one process of three instructions, with two slots to a quantum. -/
def threeInstructions : Config ℕ where
  timeSlot := 2
  numCpus := 2
  numProcesses := 1
  text := fun _ => [0, 1, 2]
  prio := fun _ => 0
  startTime := fun _ => 0

/-- A turn of CPU `0`. -/
def turn₀ : Turn 2 (Timer.Internal (Party 2)) := .cpu ⟨0, Nat.two_pos⟩

/-- A turn of CPU `1`. -/
def turn₁ : Turn 2 (Timer.Internal (Party 2)) := .cpu ⟨1, Nat.one_lt_two⟩

/-- The loader hands in the process, and CPU `0` obtains it. -/
def obtainTurns : List (Turn 2 (Timer.Internal (Party 2))) := List.replicate 3 .ld ++ [turn₀]

/-- CPU `0` runs the process for two slots and puts it back, while the loader leaves and CPU `1`
finds nothing to run. -/
def quantumTurns : List (Turn 2 (Timer.Internal (Party 2))) :=
  List.replicate 2 .ld ++ List.replicate 2 turn₁ ++ List.replicate 2 turn₀ ++
    List.replicate 9 (.clock .timer) ++ List.replicate 4 turn₁ ++ List.replicate 5 turn₀ ++
    List.replicate 9 (.clock .timer) ++ List.replicate 3 turn₀

/-- The turns of CPU `0` among these are enough for its script. -/
theorem quantum_threeInstructions :
    stint ⟨0, by decide⟩ ⟨0, by decide⟩ (simulate threeInstructions obtainTurns).clock.time
        ((simulate threeInstructions obtainTurns).pc ⟨0, by decide⟩) <+:
      events ⟨0, by decide⟩ quantumTurns (simulate threeInstructions obtainTurns) :=
  ((quantum threeInstructions (by decide) obtainTurns).1 ⟨0, by decide⟩ ⟨0, by decide⟩ rfl
    (by decide +kernel) quantumTurns).2 (by decide +kernel)

end Ossim.Simulator
