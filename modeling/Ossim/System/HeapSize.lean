import Ossim.Mem.Leaks
import Ossim.System.PageBudget

/-!
# How much memory a process can have

`__alloc` that finds no free region long enough asks for a larger area by system call 17, and takes
the region at the old break. The call works on a kernel of its own, and `inc_vma_limit` stores
nothing: the area stays as it was, and the next region that fits nowhere starts where this one does.

So no area ever grows, and every region ends where the longest that was asked for would end, or
before: the regions that share no byte have together no more bytes than the longest one, however
many the processes allocate (`heap_size`).
-/

namespace Ossim.Mem

open Machine

/-- An area without its free list. -/
def VmArea.bounds (x : VmArea) : VmArea := { x with vmFreergList := [] }

/-- Where the areas are. -/
def Mm.bounds (mm : Mm) : Option (List VmArea) := mm.mmap.map fun areas => areas.map VmArea.bounds

/-- Where `__alloc` puts a region that fits nowhere: `old_sbrk`. -/
def oldSbrk (mm : Mm) : Option Addr := do
  let curVma ← ← getVmaByNum mm 0
  let x ← area mm curVma
  some (ofInt (toInt x.sbrk))

/-- The areas are `areas`, but for their free lists, and no region ends beyond `n`. -/
structure Confined (areas : Option (List VmArea)) (n : ℕ) (mm : Mm) : Prop where
  /-- The areas are where they were. -/
  bounds : mm.bounds = areas
  /-- The regions of the symbol table end at `n` or before. -/
  entries : ∀ i, (mm.symrgtbl i).rgEnd.toNat ≤ n
  /-- So do the free ones. -/
  freeRegions : ∀ rg ∈ mm.freeRegions, rg.rgEnd.toNat ≤ n

/-! ### Where the areas are -/

theorem vmaFrom_bounds (vmaid : Word) (areas : List VmArea) (i : ℕ) :
    vmaFrom vmaid (areas.map VmArea.bounds) i = vmaFrom vmaid areas i := by
  induction areas generalizing i with
  | nil => rfl
  | cons x areas ih => simp only [List.map_cons, vmaFrom, VmArea.bounds, ih]

theorem getVmaByNum_bounds (mm : Mm) (vmaid : Word) :
    getVmaByNum { mm with mmap := mm.bounds } vmaid = getVmaByNum mm vmaid := by
  obtain ⟨mmap, symrgtbl, fifoPgn⟩ := mm
  match mmap with
  | none => rfl
  | some [] => rfl
  | some (x :: areas) => exact congrArg (Option.map some) (vmaFrom_bounds vmaid (x :: areas) 0)

theorem area_bounds (mm : Mm) (i : ℕ) :
    area { mm with mmap := mm.bounds } i = (area mm i).map VmArea.bounds := by
  obtain ⟨mmap, symrgtbl, fifoPgn⟩ := mm
  cases mmap with
  | none => rfl
  | some areas => exact List.getElem?_map

theorem getVmaByNum_congr {mm mm₁ : Mm} (hbounds : mm₁.bounds = mm.bounds) (vmaid : Word) :
    getVmaByNum mm₁ vmaid = getVmaByNum mm vmaid := by
  rw [← getVmaByNum_bounds mm₁, ← getVmaByNum_bounds mm, hbounds]
  rfl

/-- It is a matter of where the areas are. -/
theorem oldSbrk_congr {mm mm₁ : Mm} (hbounds : mm₁.bounds = mm.bounds) :
    oldSbrk mm₁ = oldSbrk mm := by
  have h (mm : Mm) : oldSbrk mm = oldSbrk { mm with mmap := mm.bounds } := by
    simp only [oldSbrk, getVmaByNum_bounds, area_bounds]
    cases getVmaByNum mm 0 with
    | none => rfl
    | some k =>
      cases k with
      | none => rfl
      | some k => cases hx : area mm k <;> simp [hx, VmArea.bounds]
  rw [h mm₁, h mm, hbounds]
  rfl

/-! ### What a call leaves -/

variable {areas : Option (List VmArea)} {n : ℕ} {mm mm' : Mm}

theorem Confined.setSymrg (h : Confined areas n mm) (i : Fin maxSymtblSz) {rg : VmRg}
    (hrg : rg.rgEnd.toNat ≤ n) : Confined areas n (setSymrg mm i rg) where
  bounds := h.bounds
  entries := by
    intro j
    by_cases hji : j = i
    · rwa [hji, symrgtbl_setSymrg_self]
    · rw [symrgtbl_setSymrg_of_ne mm hji]
      exact h.entries j
  freeRegions := h.freeRegions

/-- The free list of an area is one of those. -/
theorem mem_freeRegions {i : ℕ} {x : VmArea} (hx : area mm i = some x) {rg : VmRg}
    (hrg : rg ∈ x.vmFreergList) : rg ∈ mm.freeRegions := by
  obtain ⟨areas, hareas, hx⟩ := Option.bind_eq_some_iff.mp hx
  rw [Mm.freeRegions, Mm.areas, hareas]
  exact List.mem_flatMap_of_mem (List.mem_of_getElem? hx) hrg

theorem Confined.setArea (h : Confined areas n mm) {i : ℕ} {x : VmArea} (hx : area mm i = some x)
    {rgs : List VmRg} (hrgs : ∀ rg ∈ rgs, rg.rgEnd.toNat ≤ n) :
    Confined areas n (setArea mm i { x with vmFreergList := rgs }) := by
  obtain ⟨xs, hxs, hx⟩ := Option.bind_eq_some_iff.mp hx
  refine ⟨?_, h.entries, ?_⟩
  · rw [← h.bounds, Mm.bounds, Mm.bounds, Mem.setArea, hxs, Option.map_some, Option.map_some,
      Option.map_some, List.map_set]
    congr 1
    apply List.ext_getElem?
    intro j
    rw [List.getElem?_set]
    split_ifs with hij hlt
    · rw [← hij, List.getElem?_map, hx]
      rfl
    · rw [← hij, List.getElem?_eq_none (not_lt.mp hlt)]
    · rfl
  · intro rg hrg
    rw [Mm.freeRegions, Mm.areas, Mem.setArea, hxs, Option.map_some, Option.getD_some] at hrg
    obtain ⟨y, hy, hrg⟩ := List.mem_flatMap.mp hrg
    rcases List.mem_or_eq_of_mem_set hy with hy | rfl
    · refine h.freeRegions rg ?_
      rw [Mm.freeRegions, Mm.areas, hxs]
      exact List.mem_flatMap_of_mem hy hrg
    · exact hrgs rg hrg

/-- A region that fits ends within the one it is taken from, and so does what is left. -/
theorem rgEnd_takeFit_le {size : Addr} {rgs rgs' : List VmRg} {newrg : VmRg}
    (hrgs : ∀ rg ∈ rgs, rg.rgEnd.toNat ≤ n) (h : takeFit size rgs = some (newrg, rgs')) :
    newrg.rgEnd.toNat ≤ n ∧ ∀ rg ∈ rgs', rg.rgEnd.toNat ≤ n := by
  rcases takeFit_spec size rgs with ⟨hnone, -⟩ | ⟨pre, rg, post, rfl, -, hfits, hsome⟩
  · rw [hnone] at h
    cases h
  · rw [hsome] at h
    cases h
    have hrg := hrgs rg (List.mem_append_right _ List.mem_cons_self)
    have hle : (rg.rgStart + size).toNat ≤ rg.rgEnd.toNat := BitVec.le_def.mp hfits
    refine ⟨hle.trans hrg, ?_⟩
    intro rg' hrg'
    rcases List.mem_append.mp hrg' with hrg' | hpost
    · rcases List.mem_append.mp hrg' with hpre | hleft
      · exact hrgs rg' (List.mem_append_left _ hpre)
      · rw [leftover] at hleft
        split_ifs at hleft
        · rw [List.mem_singleton.mp hleft]
          exact hrg
        · rw [List.mem_singleton.mp hleft]
          exact hrg
        · cases hleft
    · exact hrgs rg' (List.mem_append_right _ (List.mem_cons_of_mem _ hpost))

theorem Confined.getFreeVmrgArea (h : Confined areas n mm) {vmaid size : Word}
    {found : Option VmRg} (hfree : getFreeVmrgArea vmaid size mm = some (found, mm')) :
    Confined areas n mm' ∧ ∀ rg ∈ found, rg.rgEnd.toNat ≤ n := by
  simp only [Mem.getFreeVmrgArea, Option.bind_eq_bind, Option.bind_eq_some_iff] at hfree
  obtain ⟨curVma, -, i, -, x, hx, hfree⟩ := hfree
  have hlist : ∀ rg ∈ x.vmFreergList, rg.rgEnd.toNat ≤ n :=
    fun rg hrg => h.freeRegions rg (mem_freeRegions hx hrg)
  cases htake : takeFit (ofInt size) x.vmFreergList with
  | none =>
    simp only [htake] at hfree
    cases hfree
    exact ⟨h, by simp⟩
  | some r =>
    obtain ⟨newrg, rgs⟩ := r
    simp only [htake] at hfree
    cases hfree
    obtain ⟨hnew, hrgs⟩ := rgEnd_takeFit_le hlist htake
    refine ⟨h.setArea hx hrgs, ?_⟩
    intro rg hrg
    split_ifs at hrg
    · cases hrg
    · cases hrg
      exact hnew

/-- **What `__alloc` leaves**: a region that fits nowhere ends `size` bytes after the old break. -/
theorem Confined.alloc (h : Confined areas n mm) {rgid : Word} {size addr : Addr} {val : ℤ}
    (hsize : ∀ a ∈ oldSbrk mm, a.toNat + size.toNat ≤ n)
    (halloc : alloc 0 rgid size mm = some (val, addr, mm')) : Confined areas n mm' := by
  simp only [Mem.alloc, Option.bind_eq_bind, Option.bind_eq_some_iff] at halloc
  obtain ⟨curVma, hcur, ⟨found, mm₁⟩, hfree, halloc⟩ := halloc
  obtain ⟨h₁, hfound⟩ := h.getFreeVmrgArea hfree
  cases found with
  | some rg =>
    obtain ⟨i, -, halloc⟩ := Option.bind_eq_some_iff.mp halloc
    cases halloc
    exact h₁.setSymrg i (hfound rg rfl)
  | none =>
    simp only [Option.bind_eq_some_iff] at halloc
    obtain ⟨k, hk, x, hx, r, -, i, -, halloc⟩ := halloc
    cases halloc
    rw [hk] at hcur
    have hbounds : mm₁.bounds = mm.bounds := h₁.bounds.trans h.bounds.symm
    have hold : oldSbrk mm = some (ofInt (toInt x.sbrk)) := by
      rw [← oldSbrk_congr hbounds, oldSbrk, getVmaByNum_congr hbounds, hcur, Option.bind_eq_bind,
        Option.bind_some, Option.bind_eq_bind, Option.bind_some, hx]
      rfl
    refine h₁.setSymrg i ?_
    rw [BitVec.toNat_add]
    exact (Nat.mod_le _ _).trans (hsize _ hold)

theorem Confined.free (h : Confined areas n mm) {rgid : Word} {val : ℤ}
    (hfree : free rgid mm = some (val, mm')) : Confined areas n mm' := by
  simp only [Mem.free, Option.bind_eq_bind] at hfree
  split_ifs at hfree
  · cases hfree
    exact h
  · obtain ⟨i, -, hfree⟩ := Option.bind_eq_some_iff.mp hfree
    split_ifs at hfree
    · cases hfree
      exact h
    · obtain ⟨⟨stat, mm₁⟩, henlist, hfree⟩ := Option.bind_eq_some_iff.mp hfree
      cases hfree
      have hcleared : Confined areas n (Mem.setSymrg mm i ⟨0, 0⟩) := h.setSymrg i (Nat.zero_le _)
      obtain ⟨x, hx, henlist⟩ := Option.bind_eq_some_iff.mp henlist
      split_ifs at henlist
      · cases henlist
        exact hcleared
      · cases henlist
        refine hcleared.setArea hx (List.forall_mem_cons.mpr ⟨h.entries i, ?_⟩)
        exact fun rg hrg => hcleared.freeRegions rg (mem_freeRegions hx hrg)

/-! ### Instructions -/

variable {s s' : Store}

/-- A page fault changes the list of pages only. -/
theorem Confined.pgGetpage (h : Confined areas n s.mm) {pgn : Word} {fpn : Option Word}
    (hget : pgGetpage pgn s = some (fpn, s')) : Confined areas n s'.mm := by
  have hpages (pgns : Option (List Addr)) : Confined areas n { s.mm with fifoPgn := pgns } :=
    ⟨h.bounds, h.entries, h.freeRegions⟩
  match hfifo : s.mm.fifoPgn with
  | none =>
    rw [pgGetpage_of_wrong pgn (.inl hfifo)] at hget
    cases hget
  | some [] =>
    rw [pgGetpage_of_nil pgn hfifo] at hget
    cases hget
    exact h
  | some [pgn'] =>
    rw [pgGetpage_of_wrong pgn (.inr ⟨pgn', hfifo⟩)] at hget
    cases hget
  | some (pgn₁ :: pgn₂ :: pgns) =>
    have hlen : 2 ≤ (pgn₁ :: pgn₂ :: pgns).length := by simp
    cases hfree : s.freeFpList with
    | nil =>
      rw [pgGetpage_of_exhausted pgn hfifo hlen hfree] at hget
      cases hget
      exact hpages _
    | cons fpn fpns =>
      rw [pgGetpage_of_served pgn hfifo hlen hfree] at hget
      cases hget
      exact hpages _

theorem Confined.pgAccess (h : Confined areas n s.mm) {a : Word} {stat : ℤ}
    (haccess : pgAccess a s = some (stat, s')) : Confined areas n s'.mm := by
  obtain ⟨⟨fpn, s₁⟩, hget, haccess⟩ := Option.bind_eq_some_iff.mp haccess
  cases haccess
  exact h.pgGetpage hget

/-- **What an instruction leaves.** -/
theorem Confined.execute (h : Confined areas n s.mm) {ins : Inst} {stat : ℤ}
    (hsize : ins.opcode = .alloc → ∀ a ∈ oldSbrk s.mm, a.toNat + ins.arg0.toNat ≤ n)
    (hexec : execute ins s = some (stat, s')) : Confined areas n s'.mm := by
  obtain ⟨opcode, arg0, arg1, arg2, arg3⟩ := ins
  cases opcode with
  | alloc =>
    obtain ⟨⟨val, addr, mm⟩, halloc, hexec⟩ := Option.bind_eq_some_iff.mp hexec
    cases hexec
    exact h.alloc (hsize rfl) halloc
  | free =>
    obtain ⟨⟨val, mm⟩, hfree, hexec⟩ := Option.bind_eq_some_iff.mp hexec
    cases hexec
    exact h.free hfree
  | read =>
    simp only [Mem.execute, libread, read] at hexec
    split_ifs at hexec
    obtain ⟨i, -, hexec⟩ := Option.bind_eq_some_iff.mp hexec
    obtain ⟨⟨val, s₁⟩, haccess, hexec⟩ := Option.bind_eq_some_iff.mp hexec
    cases hexec
    exact h.pgAccess haccess
  | write =>
    obtain ⟨⟨val, s₁⟩, hwrite, hexec⟩ := Option.bind_eq_some_iff.mp hexec
    cases hexec
    obtain ⟨curVma, -, hwrite⟩ := Option.bind_eq_some_iff.mp hwrite
    split_ifs at hwrite
    · cases hwrite
      exact h
    · obtain ⟨i, -, hwrite⟩ := Option.bind_eq_some_iff.mp hwrite
      obtain ⟨⟨val', s₂⟩, haccess, hwrite⟩ := Option.bind_eq_some_iff.mp hwrite
      cases hwrite
      exact h.pgAccess haccess
  | syscall =>
    obtain ⟨r, -, hexec⟩ := Option.bind_eq_some_iff.mp hexec
    cases hexec
    exact h
  | _ => cases hexec; exact h

/-- Regions apart have together no more than `n` bytes. -/
theorem Confined.sum_length_le (h : Confined areas n mm) {rgs : List VmRg}
    (hrgs : rgs ⊆ mm.regions) (hapart : rgs.Pairwise VmRg.Apart) : (rgs.map VmRg.length).sum ≤ n := by
  have hends : ∀ rg ∈ mm.regions, rg.rgEnd.toNat ≤ n := by
    intro rg hrg
    rcases List.mem_append.mp (List.mem_of_mem_filter hrg) with hentry | hfree
    · obtain ⟨i, -, rfl⟩ := List.mem_map.mp hentry
      exact h.entries i
    · exact h.freeRegions rg hfree
  have hextents : Extent.Apart (rgs.map VmRg.extent) := by
    refine List.pairwise_map.mpr (hapart.imp ?_)
    rintro rg rg' (hle | hle) b hb hb'
    · exact Extent.not_mem_points_of_hi_le (BitVec.le_def.mp hle) hb hb'
    · exact Extent.not_mem_points_of_hi_le (BitVec.le_def.mp hle) hb' hb
  have hhi : ∀ e ∈ rgs.map VmRg.extent, e.hi ≤ n := by
    intro e he
    obtain ⟨rg, hrg, rfl⟩ := List.mem_map.mp he
    exact hends rg (hrgs hrg)
  have hsum := Extent.sum_length_le hextents hhi
  rwa [List.map_map] at hsum

end Ossim.Mem

namespace Ossim.System

open Machine Simulator

/-! ### The whole system -/

variable {κ τ : Type} {cfg : Config Mem.Inst} {store store' : Mem.Store}
variable {areas : Option (List Mem.VmArea)} {n : ℕ}

theorem confined_replay {is : List Mem.Inst} (h : Mem.Confined areas n store.mm)
    (hsize : ∀ ins ∈ is, ins.opcode = .alloc →
      ∀ a ∈ Mem.oldSbrk store.mm, a.toNat + ins.arg0.toNat ≤ n)
    (hreplay : replay is store = some store') : Mem.Confined areas n store'.mm := by
  induction is generalizing store with
  | nil =>
    cases hreplay
    exact h
  | cons ins is ih =>
    obtain ⟨store₁, hstore₁, hreplay⟩ := Option.bind_eq_some_iff.mp hreplay
    obtain ⟨⟨stat, store₂⟩, hexec, rfl⟩ := Option.map_eq_some_iff.mp hstore₁
    have h₂ := h.execute (hsize ins List.mem_cons_self) hexec
    refine ih h₂ ?_ hreplay
    rw [Mem.oldSbrk_congr (h₂.bounds.trans h.bounds.symm)]
    exact fun ins' hins' => hsize ins' (List.mem_cons_of_mem _ hins')

/-- What is logged of a process is in its text. -/
theorem mem_text_of_mem_log {t : Simulator.State cfg τ} (h : Inv t) {e : Executed cfg}
    (he : e ∈ t.log) : e.ins ∈ cfg.text e.proc := by
  have hmem : e.ins ∈ executed t e.proc := List.mem_filterMap.mpr ⟨e, he, if_pos rfl⟩
  rw [h.executed_eq] at hmem
  exact List.mem_of_mem_take hmem

/-- **How much memory a process can have.** From any point of a run until the loader stores the
next block: if no region ends beyond `n` at that point, and no `ALLOC` of a program asks for more
than there is between the break and `n`, then no area moves or grows, and no region ends beyond `n`;
and regions that share no byte, in use or free, come together to no more than `n` bytes. -/
theorem heap_size (cfg : Config Mem.Inst) (clk : Clock (Party cfg.numCpus) κ τ) (t : τ)
    (heap : ℕ → Mem.Mm) (freeFpList : List Mem.Addr) (as bs : List (Turn cfg.numCpus κ))
    (hfresh : (after clk t heap freeFpList (as ++ bs)).memory.fresh =
      (after clk t heap freeFpList as).memory.fresh)
    (hstore : reached (after clk t heap freeFpList as).memory = some store)
    (hconfined : Mem.Confined areas n store.mm)
    (hsize : ∀ p, ∀ ins ∈ cfg.text p, ins.opcode = .alloc →
      ∀ a ∈ Mem.oldSbrk store.mm, a.toNat + ins.arg0.toNat ≤ n) :
    ∃ store', reached (after clk t heap freeFpList (as ++ bs)).memory = some store' ∧
      Mem.Confined areas n store'.mm ∧
      ∀ rgs : List Mem.VmRg, rgs ⊆ store'.mm.regions →
        rgs.Pairwise Mem.VmRg.Apart → (rgs.map Mem.VmRg.length).sum ≤ n := by
  have hagree : Agree (after clk t heap freeFpList as) := agree_after t heap freeFpList as
  have hagree' : Agree (after clk t heap freeFpList (as ++ bs)) :=
    agree_after t heap freeFpList (as ++ bs)
  simp only [after, run_append] at hfresh hstore hagree hagree' ⊢
  obtain ⟨es, hlog, hreached⟩ := hagree.replay_run bs hfresh
  obtain ⟨store', hstore'⟩ := Option.isSome_iff_exists.mp
    (hagree.reached_isSome_run clk (Option.isSome_of_eq_some hstore) bs)
  have hreplay : replay (es.map Executed.ins) store = some store' := by
    rw [← hstore', hreached, hstore, Option.bind_some]
  have hasked : ∀ ins ∈ es.map Executed.ins, ins.opcode = .alloc →
      ∀ a ∈ Mem.oldSbrk store.mm, a.toNat + ins.arg0.toNat ≤ n := by
    intro ins hins
    obtain ⟨e, he, rfl⟩ := List.mem_map.mp hins
    have hlogged := hlog ▸ List.mem_append_right _ he
    exact hsize e.proc e.ins (mem_text_of_mem_log hagree'.inv hlogged)
  have hconfined' := confined_replay hconfined hasked hreplay
  exact ⟨store', hstore', hconfined', fun rgs hrgs hapart => hconfined'.sum_length_le hrgs hapart⟩

/-- One `ALLOC` of 300 bytes. -/
theorem heap_size_allocFree :
    ∃ store', reached (after (osClock allocFree) Timer.startTimer (fun _ => Mem.blank) []
        (loadTurns ++ allocTurns)).memory = some store' ∧
      Mem.Confined (some [⟨0, 0, 0, 0, []⟩]) 300 store'.mm ∧
      ∀ rgs : List Mem.VmRg, rgs ⊆ store'.mm.regions →
        rgs.Pairwise Mem.VmRg.Apart → (rgs.map Mem.VmRg.length).sum ≤ 300 := by
  have hstore : reached (after (osClock allocFree) Timer.startTimer (fun _ => Mem.blank) []
      loadTurns).memory = some ⟨(turnOf .ld).junk, []⟩ := rfl
  refine heap_size allocFree (osClock allocFree) Timer.startTimer (fun _ => Mem.blank) [] loadTurns
    allocTurns (by decide +kernel) hstore ⟨rfl, fun i => Nat.zero_le _, by decide⟩ ?_
  rintro p ins hins halloc a ha
  obtain rfl : a = 0 := by
    cases ha
    rfl
  rcases List.mem_cons.mp hins with rfl | hins
  · decide
  · obtain rfl := List.mem_singleton.mp hins
    cases halloc

end Ossim.System
