import Ossim.Machine.Window
import Ossim.Mem.AccessStatus
import Ossim.Mem.PageFault
import Ossim.System.Replay

/-!
# What accesses to memory use up

A `READ` or `WRITE` that comes to an access puts a page on the list of pages in use, takes the last
one off, and takes a frame of the swap device, for good: only `free_pcb_memph` gives frames back,
and nothing calls it. When the frames are used up `pg_getpage` fails, which the program does not
notice; the last page is off the list all the same. With one page left, the next access goes
through a null pointer.

So for all processes that reach one `mm_struct` together, on any number of CPUs whose accesses do
not overlap, there are so many accesses as there are frames free, and so many more that get no page
as there are pages listed, but one; and after these, the next one ends the program (`page_budget`).
-/

namespace Ossim.Mem

open Machine

/-! ### What an instruction does to the lists -/

variable {s s' : Store}

theorem fifoPgn_getFreeVmrgArea {vmaid size : Word} {mm mm' : Mm} {found : Option VmRg}
    (h : getFreeVmrgArea vmaid size mm = some (found, mm')) : mm'.fifoPgn = mm.fifoPgn := by
  simp only [getFreeVmrgArea, Option.bind_eq_bind, Option.bind_eq_some_iff] at h
  obtain ⟨curVma, -, n, -, x, -, h⟩ := h
  split at h
  · cases h; rfl
  · cases h; rfl

theorem fifoPgn_alloc {vmaid rgid : Word} {size addr : Addr} {mm mm' : Mm} {val : ℤ}
    (h : alloc vmaid rgid size mm = some (val, addr, mm')) : mm'.fifoPgn = mm.fifoPgn := by
  simp only [alloc, Option.bind_eq_bind, Option.bind_eq_some_iff] at h
  obtain ⟨curVma, -, ⟨found, mm₁⟩, hfree, h⟩ := h
  cases found with
  | some rg =>
    obtain ⟨i, -, h⟩ := Option.bind_eq_some_iff.mp h
    cases h
    exact (fifoPgn_getFreeVmrgArea hfree :)
  | none =>
    simp only [Option.bind_eq_some_iff] at h
    obtain ⟨n, -, x, -, r, -, i, -, h⟩ := h
    cases h
    exact (fifoPgn_getFreeVmrgArea hfree :)

theorem fifoPgn_enlistVmFreergList {mm mm' : Mm} {rg : VmRg} {stat : ℤ}
    (h : enlistVmFreergList mm rg = some (stat, mm')) : mm'.fifoPgn = mm.fifoPgn := by
  obtain ⟨x, -, h⟩ := Option.bind_eq_some_iff.mp h
  split_ifs at h
  · cases h; rfl
  · cases h; rfl

theorem fifoPgn_free {rgid : Word} {mm mm' : Mm} {val : ℤ} (h : free rgid mm = some (val, mm')) :
    mm'.fifoPgn = mm.fifoPgn := by
  simp only [free, Option.bind_eq_bind] at h
  split_ifs at h
  · cases h; rfl
  · obtain ⟨i, -, h⟩ := Option.bind_eq_some_iff.mp h
    split_ifs at h
    · cases h; rfl
    · obtain ⟨⟨stat, mm₁⟩, henlist, h⟩ := Option.bind_eq_some_iff.mp h
      cases h
      exact (fifoPgn_enlistVmFreergList henlist :)

/-- An instruction that comes to an access does to the lists what `pg_getpage` does. -/
theorem execute_access {ins : Inst} {a : Word} (ha : accessAddr ins s.mm = some a) :
    (execute ins s).map Prod.snd = (pgGetpage (pagingPgn a) s).map Prod.snd := by
  obtain ⟨opcode, arg0, arg1, arg2, arg3⟩ := ins
  cases opcode with
  | read =>
    have haddr : readAddr (toInt arg0) arg1 s.mm = some a := ha
    simp only [execute, libread, read_eq, haddr, pgGetval, pgAccess_eq, Option.bind_some,
      Option.map_map]
    rfl
  | write =>
    have haddr : writeAddr (toInt arg1) arg2 s.mm = some (some a) := Option.join_eq_some_iff.mp ha
    simp only [execute, libwrite, write_eq, haddr, pgSetval, pgAccess_eq, Option.bind_eq_bind,
      Option.bind_some, Option.map_map]
    cases pgGetpage (pagingPgn a) s <;> rfl
  | _ => cases ha

/-- One that does not leaves the lists alone. -/
theorem execute_keeps {ins : Inst} {stat : ℤ} (ha : accessAddr ins s.mm = none)
    (h : execute ins s = some (stat, s')) :
    s'.mm.fifoPgn = s.mm.fifoPgn ∧ s'.freeFpList = s.freeFpList := by
  obtain ⟨opcode, arg0, arg1, arg2, arg3⟩ := ins
  cases opcode with
  | alloc =>
    obtain ⟨⟨val, addr, mm⟩, halloc, h⟩ := Option.bind_eq_some_iff.mp h
    cases h
    exact ⟨fifoPgn_alloc halloc, rfl⟩
  | free =>
    obtain ⟨⟨val, mm⟩, hfree, h⟩ := Option.bind_eq_some_iff.mp h
    cases h
    exact ⟨fifoPgn_free hfree, rfl⟩
  | read =>
    have haddr : readAddr (toInt arg0) arg1 s.mm = none := ha
    simp only [execute, libread, read_eq, haddr, Option.bind_none] at h
    cases h
  | write =>
    simp only [execute, libwrite, write_eq] at h
    have haddr : (writeAddr (toInt arg1) arg2 s.mm).join = none := ha
    rcases hw : writeAddr (toInt arg1) arg2 s.mm with _ | _ | a
    · rw [hw] at h
      cases h
    · rw [hw] at h
      cases h
      exact ⟨rfl, rfl⟩
    · rw [hw] at haddr
      cases haddr
  | syscall =>
    obtain ⟨r, -, h⟩ := Option.bind_eq_some_iff.mp h
    cases h
    exact ⟨rfl, rfl⟩
  | _ => cases h; exact ⟨rfl, rfl⟩

/-- The pages in use and the frames free. -/
def Store.window (s : Store) (pgns : List Addr) : Window Addr Addr := ⟨pgns, s.freeFpList⟩

/-- The page that an instruction asks for. -/
def asked (ins : Inst) (mm : Mm) : Option Addr :=
  (accessAddr ins mm).map fun a => ofInt (pagingPgn a)

/-- **An access is an entry into the window**, if it returns at all. -/
theorem execute_window {ins : Inst} {stat : ℤ} {pgns : List Addr} (hfifo : s.mm.fifoPgn = some pgns)
    (hne : pgns ≠ []) (h : execute ins s = some (stat, s')) :
    ∃ pgns', s'.mm.fifoPgn = some pgns' ∧ pgns' ≠ [] ∧
      s'.window pgns' = run Window.enter (asked ins s.mm).toList (s.window pgns) := by
  cases ha : accessAddr ins s.mm with
  | none =>
    obtain ⟨hfifo', hfree⟩ := execute_keeps ha h
    refine ⟨pgns, hfifo'.trans hfifo, hne, ?_⟩
    rw [asked, ha, Store.window, Store.window, hfree]
    rfl
  | some a =>
    have haccess := execute_access ha
    rw [h, Option.map_some] at haccess
    obtain ⟨⟨fpn, s''⟩, hget, rfl⟩ := Option.map_eq_some_iff.mp haccess.symm
    simp only [asked, ha, Option.map_some, Option.toList_some, run_cons, run_nil, Store.window]
    match pgns, hne, hfifo with
    | [pgn], _, hfifo => rw [pgGetpage_of_wrong _ (.inr ⟨pgn, hfifo⟩)] at hget; cases hget
    | pgn :: pgn' :: pgns, _, hfifo =>
      have hlen : 2 ≤ (pgn :: pgn' :: pgns).length := by simp
      cases hfree : s.freeFpList with
      | nil =>
        rw [pgGetpage_of_exhausted _ hfifo hlen hfree] at hget
        cases hget
        exact ⟨_, rfl, by simp, by simp only [Window.enter, hfree]⟩
      | cons fpn fpns =>
        rw [pgGetpage_of_served _ hfifo hlen hfree] at hget
        cases hget
        exact ⟨_, rfl, by simp, by simp only [Window.enter]⟩

end Ossim.Mem

namespace Ossim.System

open Machine Simulator

/-! ### Any number of instructions -/

/-- The pages that a list of instructions asks for, one after another. -/
def askedBy : List Mem.Inst → Mem.Store → List Mem.Addr
  | [], _ => []
  | ins :: is, store => (Mem.asked ins store.mm).toList ++
      match Mem.execute ins store with
      | none => []
      | some (_, store') => askedBy is store'

variable {store store' : Mem.Store} {pgns pages : List Mem.Addr}

theorem replay_window {is : List Mem.Inst} (hfifo : store.mm.fifoPgn = some pgns) (hne : pgns ≠ [])
    (h : replay is store = some store') :
    ∃ pgns', store'.mm.fifoPgn = some pgns' ∧ pgns' ≠ [] ∧
      store'.window pgns' = run Window.enter (askedBy is store) (store.window pgns) := by
  induction is generalizing store pgns with
  | nil =>
    cases h
    exact ⟨pgns, hfifo, hne, rfl⟩
  | cons ins is ih =>
    rw [replay, List.foldlM_cons] at h
    obtain ⟨store₁, hstore₁, h⟩ := Option.bind_eq_some_iff.mp h
    obtain ⟨⟨stat, store₂⟩, hexec, rfl⟩ := Option.map_eq_some_iff.mp hstore₁
    obtain ⟨pgns₁, hfifo₁, hne₁, hwindow₁⟩ := Mem.execute_window hfifo hne hexec
    obtain ⟨pgns', hfifo', hne', hwindow'⟩ := ih hfifo₁ hne₁ h
    refine ⟨pgns', hfifo', hne', ?_⟩
    rw [hwindow', hwindow₁, askedBy, hexec, run_append]

/-- What is left in `store'` of the pages `pgns` listed in `store` and of its frames, when `pages`
have been asked for. -/
structure Spent (store : Mem.Store) (pgns pages : List Mem.Addr) (store' : Mem.Store) : Prop where
  /-- Not all has been used up. -/
  length_lt : pages.length < store.freeFpList.length + pgns.length
  /-- The frames that are left. -/
  frames : store'.freeFpList = store.freeFpList.drop pages.length
  /-- The pages asked for while there were frames, and those listed before, without the oldest. -/
  listed : store'.mm.fifoPgn = some ((store.window pgns).shows pages)

theorem spent_replay {is : List Mem.Inst} (hfifo : store.mm.fifoPgn = some pgns)
    (hlen : 2 ≤ pgns.length) (h : replay is store = some store') :
    Spent store pgns (askedBy is store) store' := by
  have hne : pgns ≠ [] := List.ne_nil_of_length_pos (by omega)
  obtain ⟨pgns', hfifo', hne', hwindow⟩ := replay_window hfifo hne h
  rw [Window.run_enter _ hne] at hwindow
  have hitems : pgns' = (store.window pgns).shows (askedBy is store) :=
    congrArg Window.items hwindow
  refine ⟨?_, congrArg Window.supply hwindow, hitems ▸ hfifo'⟩
  have hlength := Window.length_shows (askedBy is store) (store.window pgns)
  rw [← hitems] at hlength
  have hpos := List.length_pos_of_ne_nil hne'
  simp only [Mem.Store.window] at hlength
  omega

/-! ### The next access -/

theorem Spent.length_listed (h : Spent store pgns pages store') :
    ∃ pgns', store'.mm.fifoPgn = some pgns' ∧
      pgns'.length = pgns.length - (pages.length - store.freeFpList.length) :=
  ⟨_, h.listed, Window.length_shows _ _⟩

/-- There is no result when one page is left. -/
theorem Spent.pgGetpage_eq_none_iff (h : Spent store pgns pages store') (hlen : 2 ≤ pgns.length)
    (pgn : Mem.Word) : Mem.pgGetpage pgn store' = none ↔
      pages.length + 1 = store.freeFpList.length + pgns.length := by
  obtain ⟨pgns', hfifo, hlength⟩ := h.length_listed
  have hlt := h.length_lt
  have hsome := Mem.pgGetpage_isSome_iff pgn store'
  simp only [hfifo, Option.some.injEq, exists_eq_left'] at hsome
  rw [← Option.not_isSome_iff_eq_none, hsome, not_not]
  omega

/-- The page is got when a frame is left. -/
theorem Spent.pgGetpage_served_iff (h : Spent store pgns pages store') (hlen : 2 ≤ pgns.length)
    (pgn : Mem.Word) : (∃ fpn store'', Mem.pgGetpage pgn store' = some (some fpn, store'')) ↔
      pages.length < store.freeFpList.length := by
  obtain ⟨pgns', hfifo, hlength⟩ := h.length_listed
  have hlt := h.length_lt
  by_cases hleft : pages.length < store.freeFpList.length
  · obtain ⟨fpn, fpns, hfree⟩ := List.exists_cons_of_ne_nil (l := store'.freeFpList) (by
      rw [h.frames]
      exact List.drop_eq_nil_iff.not.mpr (by omega))
    exact iff_of_true ⟨_, _, Mem.pgGetpage_of_served pgn hfifo (by omega) hfree⟩ hleft
  · refine iff_of_false ?_ hleft
    have hfree : store'.freeFpList = [] := by
      rw [h.frames]
      exact List.drop_eq_nil_of_le (by omega)
    rintro ⟨fpn, store'', hget⟩
    by_cases hone : pgns'.length = 1
    · obtain ⟨pgn', rfl⟩ := List.length_eq_one_iff.mp hone
      rw [Mem.pgGetpage_of_wrong pgn (.inr ⟨pgn', hfifo⟩)] at hget
      cases hget
    · rw [Mem.pgGetpage_of_exhausted pgn hfifo (by omega) hfree] at hget
      cases hget

/-! ### The whole system -/

variable {κ τ : Type} {cfg : Config Mem.Inst} {clk : Clock (Party cfg.numCpus) κ τ}
variable {s : State cfg τ}

/-- A CPU cannot execute its next instruction when that has no result. -/
theorem Agree.step_run_eq_none_iff (h : Agree s) {c : Fin cfg.numCpus} {p : cfg.Proc} {left : ℤ}
    (hc : s.threads.cpu c = ⟨.run, some p, left⟩) {ins : Mem.Inst}
    (hins : (cfg.text p)[s.threads.pc p]? = some ins) (hstore : reached s.memory = some store)
    (junk : Mem.Mm) :
    System.step clk ⟨.cpu c, junk⟩ s = none ↔ Mem.execute ins store = none := by
  have hthere := h.pcbs_of_held (c := c) (p := p) (by rw [hc]; rfl)
  obtain ⟨block, hblock, rfl⟩ := Option.map_eq_some_iff.mp hstore
  have hthreads : Simulator.step clk (.cpu c) s.threads =
      some (setCpu (Simulator.run clk c p s.threads) c ⟨.top, some p, left - 1⟩) := by
    rw [Simulator.step, cpuRoutine, hc]
  have hmemory : Mem.turn (codes cfg) (.run p) s.memory = none ↔
      Mem.execute ins ⟨s.memory.heap block, s.memory.freeFpList⟩ = none := by
    rw [Mem.turn, Mem.runInst, hthere]
    simp only [Option.bind_eq_bind, Option.bind_some, hins, hblock]
    cases Mem.execute ins ⟨s.memory.heap block, s.memory.freeFpList⟩ <;> simp
  rw [← hmemory, System.step]
  simp only [threadTurn, memoryTurn, cpuMemory, hc, optional, hthreads, Option.bind_eq_bind,
    Option.bind_some, Option.bind_eq_none_iff, reduceCtorEq, imp_false]
  exact Option.eq_none_iff_forall_ne_some.symm

theorem Agree.reached_isSome_run (h : Agree s) (clk : Clock (Party cfg.numCpus) κ τ)
    (hsome : (reached s.memory).isSome) (as : List (Turn cfg.numCpus κ)) :
    (reached (Machine.run (System.move clk) as s).memory).isSome := by
  induction as generalizing s with
  | nil => exact hsome
  | cons a as ih =>
    refine ih (h.move clk a) ?_
    rcases stutter_cases (System.step clk) a s with hs | hs
    · rw [System.move]
      cases h.effect hs with
      | load junk _ _ hm =>
        rw [hm]
        simp only [reached, Mem.ldRoutine, Function.update_self, Option.map_some, Option.isSome_some]
      | exec _ _ _ _ _ _ _ _ hreached' _ _ =>
        rw [hreached']
        rfl
      | none _ hreached _ _ => rwa [hreached]
    · rwa [System.move, hs]

/-- **What accesses use up.** From any point of a run until the loader stores the next block, with
two pages or more listed: the processes together ask for no more pages than there are frames free
and pages listed at that point, less one; the frames go in their order and do not come back, and
the pages listed are the last of those asked for while there were frames, and of those listed
before. A CPU about to access the memory cannot go on just when that many have been asked for, and
gets its page just when there are frames left. Each access is over before the next one begins. -/
theorem page_budget (cfg : Config Mem.Inst) (clk : Clock (Party cfg.numCpus) κ τ) (t : τ)
    (heap : ℕ → Mem.Mm) (freeFpList : List Mem.Addr) (as bs : List (Turn cfg.numCpus κ))
    (hfresh : (after clk t heap freeFpList (as ++ bs)).memory.fresh =
      (after clk t heap freeFpList as).memory.fresh)
    (hstore : reached (after clk t heap freeFpList as).memory = some store)
    (hfifo : store.mm.fifoPgn = some pgns) (hlen : 2 ≤ pgns.length) :
    ∃ es store', (after clk t heap freeFpList (as ++ bs)).threads.log =
        (after clk t heap freeFpList as).threads.log ++ es ∧
      reached (after clk t heap freeFpList (as ++ bs)).memory = some store' ∧
      Spent store pgns (askedBy (es.map Executed.ins) store) store' ∧
      ∀ c p left ins a junk,
        (after clk t heap freeFpList (as ++ bs)).threads.cpu c = ⟨.run, some p, left⟩ →
        (cfg.text p)[(after clk t heap freeFpList (as ++ bs)).threads.pc p]? = some ins →
        Mem.accessAddr ins store'.mm = some a →
        (System.step clk ⟨.cpu c, junk⟩ (after clk t heap freeFpList (as ++ bs)) = none ↔
            (askedBy (es.map Executed.ins) store).length + 1 =
              store.freeFpList.length + pgns.length) ∧
          ((∃ fpn store'', Mem.pgGetpage (Mem.pagingPgn a) store' = some (some fpn, store'')) ↔
            (askedBy (es.map Executed.ins) store).length < store.freeFpList.length) := by
  have hagree : Agree (after clk t heap freeFpList as) := agree_after t heap freeFpList as
  have hagree' : Agree (after clk t heap freeFpList (as ++ bs)) :=
    agree_after t heap freeFpList (as ++ bs)
  simp only [after, run_append] at hfresh hstore hagree hagree' ⊢
  obtain ⟨es, hlog, hreached⟩ := hagree.replay_run bs hfresh
  have hsome := hagree.reached_isSome_run clk (Option.isSome_of_eq_some hstore) bs
  obtain ⟨store', hstore'⟩ := Option.isSome_iff_exists.mp hsome
  have hreplay : replay (es.map Executed.ins) store = some store' := by
    rw [← hstore', hreached, hstore, Option.bind_some]
  have hspent := spent_replay hfifo hlen hreplay
  refine ⟨es, store', hlog, hstore', hspent, ?_⟩
  intro c p left ins a junk hc hins ha
  refine ⟨?_, hspent.pgGetpage_served_iff hlen _⟩
  rw [hagree'.step_run_eq_none_iff hc hins hstore' junk, ← hspent.pgGetpage_eq_none_iff hlen,
    ← Option.map_eq_none_iff (f := Prod.snd), Mem.execute_access ha, Option.map_eq_none_iff]

/-- One CPU, and a process that reads two bytes. -/
def twoReads : Config Mem.Inst where
  timeSlot := 2
  numCpus := 1
  numProcesses := 1
  text := fun _ => [⟨.read, 0, 0, 0, 0⟩, ⟨.read, 0, 1, 0, 0⟩]
  prio := fun _ => 0
  startTime := fun _ => 0

/-- A block with two pages listed. -/
def twoPages : Mem.Mm := ⟨some [], fun _ => ⟨0, 0⟩, some [7, 3]⟩

/-- Turns of one thread, with this block for `malloc` to return. -/
def turnsOf (n : ℕ)
    (who : Simulator.Turn twoReads.numCpus (Timer.Internal (Party twoReads.numCpus))) :
    List (Turn twoReads.numCpus (Timer.Internal (Party twoReads.numCpus))) :=
  List.replicate n ⟨who, twoPages⟩

/-- The CPU executes the first instruction in the next slot. -/
def readTurns : List (Turn twoReads.numCpus (Timer.Internal (Party twoReads.numCpus))) :=
  turnsOf 3 (.cpu ⟨0, Nat.one_pos⟩) ++ turnsOf 7 (.clock .timer) ++
    turnsOf 2 (.cpu ⟨0, Nat.one_pos⟩)

/-- The first read has used the one frame there is. -/
theorem page_budget_twoReads :
    ∃ es store', (after (osClock twoReads) Timer.startTimer (fun _ => Mem.blank) [5]
        (turnsOf 6 .ld ++ readTurns)).threads.log =
        (after (osClock twoReads) Timer.startTimer (fun _ => Mem.blank) [5]
          (turnsOf 6 .ld)).threads.log ++ es ∧
      reached (after (osClock twoReads) Timer.startTimer (fun _ => Mem.blank) [5]
        (turnsOf 6 .ld ++ readTurns)).memory = some store' ∧
      Spent ⟨twoPages, [5]⟩ [7, 3] (askedBy (es.map Executed.ins) ⟨twoPages, [5]⟩) store' := by
  have hstore : reached (after (osClock twoReads) Timer.startTimer (fun _ => Mem.blank) [5]
      (turnsOf 6 .ld)).memory = some ⟨twoPages, [5]⟩ := rfl
  obtain ⟨es, store', hlog, hstore', hspent, -⟩ := page_budget twoReads (osClock twoReads)
    Timer.startTimer (fun _ => Mem.blank) [5] (turnsOf 6 .ld) readTurns (by decide +kernel) hstore
    rfl (by decide)
  exact ⟨es, store', hlog, hstore', hspent⟩

end Ossim.System
