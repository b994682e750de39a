import Ossim.Machine.Run
import Ossim.Mem.FirstFit
import Mathlib.Data.Fin.VecNotation

/-!
# Overlapping regions

The regions in use (the entries of the symbol table) and the free ones should share no
address and should lie below the break of the area. They do as long as nothing is
allocated: `__alloc` takes a region from the break when the free list has none that
fits, and leaves it to the system call `memmap` to move the break; `inc_vma_limit`,
which is where that call ends, does not. So every such region starts at the same
address, and none is below the break.

## The model

A call is an `__alloc` or a `__free` in the first area, with an entry of the symbol
table and, for `__alloc`, a size that an `int` holds; a run starts with one area with
no space in it, no entry in use and nothing on the free list.
-/

namespace Ossim.Mem

open Machine

/-! ### Regions apart -/

/-- A region with an address in it. -/
def VmRg.Nonempty (rg : VmRg) : Prop := rg.rgStart < rg.rgEnd

instance (rg : VmRg) : Decidable rg.Nonempty := inferInstanceAs (Decidable (rg.rgStart < rg.rgEnd))

/-- Two regions, each with an address in it, have none in common. -/
def VmRg.Apart (rg rg' : VmRg) : Prop := rg.rgEnd ≤ rg'.rgStart ∨ rg'.rgEnd ≤ rg.rgStart

instance (rg rg' : VmRg) : Decidable (rg.Apart rg') :=
  inferInstanceAs (Decidable (rg.rgEnd ≤ rg'.rgStart ∨ rg'.rgEnd ≤ rg.rgStart))

/-- The areas of an `mm_struct`. -/
def Mm.areas (mm : Mm) : List VmArea := mm.mmap.getD []

/-- The regions with an address in them: those of the symbol table and the free ones. -/
def Mm.regions (mm : Mm) : List VmRg :=
  ((List.finRange maxSymtblSz).map mm.symrgtbl ++ mm.areas.flatMap fun x => x.vmFreergList).filter
    fun rg => decide rg.Nonempty

/-- The regions are apart and below the break. -/
structure Separate (mm : Mm) : Prop where
  /-- No two of them share an address. -/
  apart : mm.regions.Pairwise VmRg.Apart
  /-- They end at the break of the area or before it. -/
  below : ∀ x ∈ mm.areas, ∀ rg ∈ mm.regions, rg.rgEnd ≤ x.sbrk

/-! ### Calls -/

/-- A size that is positive and an `int`. -/
abbrev AllocSize : Type := { size : Addr // 1 ≤ size.toNat ∧ size.toNat < 2 ^ 31 }

/-- A call in the first area. -/
inductive Call where
  /-- `__alloc(0, rgid, size)`. -/
  | alloc (rgid : Fin maxSymtblSz) (size : AllocSize)
  /-- `__free(0, rgid)`. -/
  | free (rgid : Fin maxSymtblSz)

/-- The `mm_struct` after a call. -/
def call : Call → Mm → Option Mm
  | .alloc rgid size, mm => (alloc 0 (BitVec.ofNat 32 rgid) size mm).map fun r => r.2.2
  | .free rgid, mm => (free (BitVec.ofNat 32 rgid) mm).map fun r => r.2

/-- One area with no space in it, no entry in use, nothing on the free list. -/
def start (fifoPgn : Option (List Addr)) : Mm where
  mmap := some [⟨0, 0, 0, 0, []⟩]
  symrgtbl := fun _ => ⟨0, 0⟩
  fifoPgn := fifoPgn

/-! ### One area -/

/-- The first area of `mm` is `x`, and its number is 0. -/
structure FirstArea (mm : Mm) (x : VmArea) (areas : List VmArea) : Prop where
  /-- It is the first one. -/
  mmap : mm.mmap = some (x :: areas)
  /-- Its number. -/
  vmId : x.vmId = 0

variable {mm : Mm} {x : VmArea} {areas : List VmArea}

theorem FirstArea.getVmaByNum_eq (h : FirstArea mm x areas) : getVmaByNum mm 0 = some (some 0) := by
  simp [getVmaByNum, h.mmap, vmaFrom, h.vmId, toInt]

theorem FirstArea.area_eq (h : FirstArea mm x areas) : area mm 0 = some x := by simp [area, h.mmap]

theorem FirstArea.curVma (h : FirstArea mm x areas) : CurVma mm 0 0 x :=
  ⟨h.getVmaByNum_eq, h.area_eq⟩

theorem FirstArea.update_area (h : FirstArea mm x areas) (freergList : List VmRg) :
    FirstArea (setArea mm 0 { x with vmFreergList := freergList })
      { x with vmFreergList := freergList } areas :=
  ⟨by simp [setArea, h.mmap], h.vmId⟩

theorem FirstArea.update_symrg (h : FirstArea mm x areas) (i : Fin maxSymtblSz) (rg : VmRg) :
    FirstArea (setSymrg mm i rg) x areas := ⟨h.mmap, h.vmId⟩

theorem symrg_ofNat (rgid : Fin maxSymtblSz) : symrg (BitVec.ofNat 32 rgid) = some rgid := by
  have hword : (BitVec.ofNat 32 (rgid : ℕ)).toNat = rgid :=
    Nat.mod_eq_of_lt (lt_trans rgid.isLt (by decide))
  simp only [symrg, hword, rgid.isLt, ↓reduceDIte]

theorem FirstArea.getFreeVmrgArea_returns (h : FirstArea mm x areas) (size : Word) :
    ∃ found mm₁ x₁, getFreeVmrgArea 0 size mm = some (found, mm₁) ∧ FirstArea mm₁ x₁ areas := by
  simp only [getFreeVmrgArea, h.getVmaByNum_eq, h.area_eq, Option.bind_eq_bind, Option.bind_some]
  cases takeFit (ofInt size) x.vmFreergList with
  | none => exact ⟨_, _, _, rfl, h⟩
  | some r => exact ⟨_, _, _, rfl, h.update_area r.2⟩

/-- A region found on the free list is the entry's. -/
theorem FirstArea.alloc_found (h : FirstArea mm x areas) (rgid : Fin maxSymtblSz) {size : Addr}
    {rg : VmRg} {mm₁ : Mm} (hfree : getFreeVmrgArea 0 (toInt size) mm = some (some rg, mm₁)) :
    alloc 0 (BitVec.ofNat 32 rgid) size mm = some (0, rg.rgStart, setSymrg mm₁ rgid rg) :=
  h.curVma.alloc_found (symrg_ofNat rgid) hfree

/-- With none found, the entry's region starts at the break, which stays. -/
theorem FirstArea.alloc_grow (h : FirstArea mm x areas) (rgid : Fin maxSymtblSz) {size : Addr}
    {mm₁ : Mm} {x₁ : VmArea} (hfree : getFreeVmrgArea 0 (toInt size) mm = some (none, mm₁))
    (h₁ : FirstArea mm₁ x₁ areas) :
    alloc 0 (BitVec.ofNat 32 rgid) size mm =
      some (0, ofInt (toInt x₁.sbrk),
        setSymrg mm₁ rgid ⟨ofInt (toInt x₁.sbrk), ofInt (toInt x₁.sbrk) + size⟩) :=
  h.curVma.alloc_grow (symrg_ofNat rgid) hfree h₁.area_eq

/-! ### Calls return -/

theorem FirstArea.alloc_returns (h : FirstArea mm x areas) (rgid : Fin maxSymtblSz) (size : Addr) :
    ∃ addr mm' x', alloc 0 (BitVec.ofNat 32 rgid) size mm = some (0, addr, mm') ∧
      FirstArea mm' x' areas := by
  obtain ⟨found, mm₁, x₁, hfree, h₁⟩ := h.getFreeVmrgArea_returns (toInt size)
  cases found with
  | none => exact ⟨_, _, _, h.alloc_grow rgid hfree h₁, h₁.update_symrg rgid _⟩
  | some rg => exact ⟨_, _, _, h.alloc_found rgid hfree, h₁.update_symrg rgid rg⟩

theorem FirstArea.enlist_returns (h : FirstArea mm x areas) (rg : VmRg) :
    ∃ stat mm' x', enlistVmFreergList mm rg = some (stat, mm') ∧ FirstArea mm' x' areas := by
  simp only [enlistVmFreergList, h.area_eq, Option.bind_eq_bind, Option.bind_some]
  split_ifs
  · exact ⟨_, _, _, rfl, h⟩
  · exact ⟨_, _, _, rfl, h.update_area _⟩

theorem FirstArea.free_returns (h : FirstArea mm x areas) (rgid : Fin maxSymtblSz) :
    ∃ stat mm' x', free (BitVec.ofNat 32 rgid) mm = some (stat, mm') ∧ FirstArea mm' x' areas := by
  obtain ⟨_, mm', x', henlist, h'⟩ := (h.update_symrg rgid ⟨0, 0⟩).enlist_returns (mm.symrgtbl rgid)
  simp only [free, symrg_ofNat, henlist, Option.bind_eq_bind, Option.bind_some]
  split_ifs
  · exact ⟨_, _, _, rfl, h⟩
  · exact ⟨_, _, _, rfl, h⟩
  · exact ⟨_, _, _, rfl, h'⟩

/-- No call of a run follows a pointer it may not follow. -/
theorem calls_return (calls : List Call) (h : FirstArea mm x areas) :
    Along (stutter call) (fun mm c => (call c mm).isSome) calls mm := by
  induction calls generalizing mm x with
  | nil => trivial
  | cons c calls ih =>
    have hcall : ∃ mm' x', call c mm = some mm' ∧ FirstArea mm' x' areas := by
      cases c with
      | alloc rgid size =>
        obtain ⟨_, mm', x', halloc, h'⟩ := h.alloc_returns rgid size
        exact ⟨mm', x', by rw [call, halloc]; rfl, h'⟩
      | free rgid =>
        obtain ⟨_, mm', x', hfree, h'⟩ := h.free_returns rgid
        exact ⟨mm', x', by rw [call, hfree]; rfl, h'⟩
    obtain ⟨mm', x', hcall, h'⟩ := hcall
    refine ⟨Option.isSome_of_eq_some hcall, ?_⟩
    rw [stutter_of_some hcall]
    exact ih h'

/-! ### Runs -/

theorem firstArea_start (fifoPgn : Option (List Addr)) :
    FirstArea (start fifoPgn) ⟨0, 0, 0, 0, []⟩ [] :=
  ⟨rfl, rfl⟩

theorem regions_start (fifoPgn : Option (List Addr)) : (start fifoPgn).regions = [] := by
  simp [Mm.regions, start, Mm.areas, VmRg.Nonempty]

theorem separate_start (fifoPgn : Option (List Addr)) : Separate (start fifoPgn) := by
  refine ⟨?_, ?_⟩
  · rw [regions_start]; exact List.Pairwise.nil
  · intro x _ rg hrg
    rw [regions_start] at hrg
    exact absurd hrg List.not_mem_nil

theorem call_free_start (fifoPgn : Option (List Addr)) (rgid : Fin maxSymtblSz) :
    stutter call (.free rgid) (start fifoPgn) = start fifoPgn := by
  apply stutter_of_some
  unfold call free
  cases getSymrgById (BitVec.ofNat 32 rgid) <;> simp [symrg_ofNat, start]

theorem call_alloc_start (fifoPgn : Option (List Addr)) (rgid : Fin maxSymtblSz)
    (size : AllocSize) :
    stutter call (.alloc rgid size) (start fifoPgn) = setSymrg (start fifoPgn) rgid ⟨0, size⟩ := by
  apply stutter_of_some
  have hfree : getFreeVmrgArea 0 (toInt size) (start fifoPgn) = some (none, start fifoPgn) := rfl
  rw [call, (firstArea_start fifoPgn).alloc_grow rgid hfree (firstArea_start fifoPgn)]
  simp [ofInt, toInt]

/-- The first region allocated is not below the break. -/
theorem not_separate_alloc (fifoPgn : Option (List Addr)) (rgid : Fin maxSymtblSz)
    (size : AllocSize) :
    ¬ Separate (setSymrg (start fifoPgn) rgid ⟨0, size⟩) := by
  intro h
  obtain ⟨size, hpos, hint⟩ := size
  have hrg : (⟨0, size⟩ : VmRg) ∈ (setSymrg (start fifoPgn) rgid ⟨0, size⟩).regions := by
    refine List.mem_filter.mpr ⟨List.mem_append_left _ ?_, ?_⟩
    · exact List.mem_map.mpr ⟨rgid, List.mem_finRange rgid, by simp [setSymrg]⟩
    · refine decide_eq_true (show (0 : Addr) < size from ?_)
      bv_omega
  have hle := h.below ⟨0, 0, 0, 0, []⟩ (by simp [Mm.areas, setSymrg, start]) _ hrg
  have hle : size ≤ 0 := hle
  bv_omega

/-- The regions are apart and below the break throughout exactly the runs that allocate
nothing. -/
theorem regions_separate_iff (fifoPgn : Option (List Addr)) (calls : List Call) :
    Throughout (stutter call) Separate calls (start fifoPgn) ↔
      ∀ c ∈ calls, ∃ rgid, c = .free rgid := by
  induction calls with
  | nil =>
    constructor
    · intro _ c hc
      exact absurd hc List.not_mem_nil
    · intro _
      exact separate_start fifoPgn
  | cons c calls ih =>
    cases c with
    | free rgid =>
      rw [Throughout, call_free_start, ih]
      simp [separate_start]
    | alloc rgid size =>
      constructor
      · intro h
        rw [Throughout, call_alloc_start] at h
        exact absurd h.2.first (not_separate_alloc fifoPgn rgid size)
      · intro h
        obtain ⟨rgid', hfree⟩ := h _ List.mem_cons_self
        cases hfree

/-- `__alloc(0, 0, 100)` and then `__alloc(0, 1, 50)`. -/
def twoAllocs : List Call := [.alloc 0 ⟨100, by decide⟩, .alloc 1 ⟨50, by decide⟩]

/-- Two regions allocated one after the other overlap. -/
theorem two_regions_overlap :
    (run (stutter call) twoAllocs (start (some []))).regions = [⟨0, 100⟩, ⟨0, 50⟩] ∧
      ¬ Throughout (stutter call) Separate twoAllocs (start (some [])) := by
  have hregions : (run (stutter call) twoAllocs (start (some []))).regions = [⟨0, 100⟩, ⟨0, 50⟩] := by
    decide +kernel
  refine ⟨hregions, ?_⟩
  intro h
  have hapart := h.last.apart
  rw [hregions] at hapart
  exact absurd hapart (by decide)

end Ossim.Mem
