import Ossim.Mem.Overlap

/-!
# Memory that is lost

What a process has been given should always be in an entry of its symbol table or on the free
list. `__free` moves a region from one to the other, and `__alloc` splits a free region
between the two. But `__alloc` also stores the new region over whatever the entry had. So
memory is lost just when an entry is allocated again whose bytes are nowhere else
(`nothingLost_iff`).
-/

namespace Ossim.Mem

open Machine

/-! ### Where memory is -/

/-- The byte is in an entry of the symbol table. -/
def InUse (mm : Mm) (b : ℕ) : Prop := ∃ i, b ∈ (mm.symrgtbl i).extent.points

/-- The free regions of all areas. -/
def Mm.freeRegions (mm : Mm) : List VmRg := mm.areas.flatMap fun x => x.vmFreergList

/-- The byte is in an entry of the symbol table or free. -/
def Kept (mm : Mm) (b : ℕ) : Prop := InUse mm b ∨ b ∈ covered mm.freeRegions

/-- Whatever was in use at some point of the run is kept at every later one. -/
def NothingLost (calls : List Call) (mm : Mm) : Prop :=
  ∀ pre mid, pre ++ mid <+: calls → ∀ b, InUse (run (stutter call) pre mm) b →
    Kept (run (stutter call) (pre ++ mid) mm) b

/-- The bytes of the entry that a call allocates are also those of another entry, or free, or they
are at the break and no free region is long enough. -/
def Spares (mm : Mm) : Call → Prop
  | .alloc rgid size => ∀ b ∈ (mm.symrgtbl rgid).extent.points,
      (∃ j, j ≠ rgid ∧ b ∈ (mm.symrgtbl j).extent.points) ∨ b ∈ covered mm.freeRegions ∨
        ((∀ rg ∈ mm.freeRegions, rg.length < size.1.toNat) ∧
          ∃ x ∈ mm.areas, x.sbrk.toNat ≤ b ∧ b < x.sbrk.toNat + size.1.toNat)
  | .free _ => True

/-! ### The states of a run -/

/-- The region ends where it starts or after it, and an `int` holds its end. -/
def VmRg.Small (rg : VmRg) : Prop := rg.rgStart.toNat ≤ rg.rgEnd.toNat ∧ rg.rgEnd.toNat < 2 ^ 31

theorem VmRg.Small.wellFormed {rg : VmRg} (h : rg.Small) : rg.WellFormed := by
  obtain ⟨hle, hlt⟩ := h
  exact ⟨hle, by omega⟩

/-- What holds in every state reached. -/
structure Reached (mm : Mm) (x : VmArea) : Prop where
  /-- There is one area. -/
  first : FirstArea mm x []
  /-- Its break is where it started. -/
  sbrk : x.sbrk = 0
  /-- The entries are small. -/
  entries : ∀ i, (mm.symrgtbl i).Small
  /-- The free regions are small. -/
  free : ∀ rg ∈ x.vmFreergList, rg.Small

theorem reached_start (fifoPgn : Option (List Addr)) :
    Reached (start fifoPgn) ⟨0, 0, 0, 0, []⟩ where
  first := firstArea_start fifoPgn
  sbrk := rfl
  entries := by
    intro i
    exact ⟨Nat.le_refl _, show (0 : Addr).toNat < 2 ^ 31 by decide⟩
  free := by simp

variable {mm : Mm} {x : VmArea}

theorem Reached.freeRegions (h : Reached mm x) : mm.freeRegions = x.vmFreergList := by
  simp [Mm.freeRegions, Mm.areas, h.first.mmap]

theorem symrgtbl_setSymrg_self (mm : Mm) (i : Fin maxSymtblSz) (rg : VmRg) :
    (setSymrg mm i rg).symrgtbl i = rg := Function.update_self ..

theorem symrgtbl_setSymrg_of_ne (mm : Mm) {i j : Fin maxSymtblSz} (h : j ≠ i) (rg : VmRg) :
    (setSymrg mm i rg).symrgtbl j = mm.symrgtbl j := Function.update_of_ne h ..

/-- A byte is in use after an entry is stored if it is in the entry or was in another one. -/
theorem inUse_setSymrg (mm : Mm) (i : Fin maxSymtblSz) (rg : VmRg) (b : ℕ) :
    InUse (setSymrg mm i rg) b ↔
      b ∈ rg.extent.points ∨ ∃ j, j ≠ i ∧ b ∈ (mm.symrgtbl j).extent.points := by
  constructor
  · rintro ⟨j, hj⟩
    by_cases hji : j = i
    · rw [hji, symrgtbl_setSymrg_self] at hj
      exact .inl hj
    · rw [symrgtbl_setSymrg_of_ne mm hji] at hj
      exact .inr ⟨j, hji, hj⟩
  · rintro (hb | ⟨j, hji, hj⟩)
    · exact ⟨i, by rwa [symrgtbl_setSymrg_self]⟩
    · exact ⟨j, by rwa [symrgtbl_setSymrg_of_ne mm hji]⟩

theorem inUse_iff (mm : Mm) (i : Fin maxSymtblSz) (b : ℕ) :
    InUse mm b ↔ b ∈ (mm.symrgtbl i).extent.points ∨
      ∃ j, j ≠ i ∧ b ∈ (mm.symrgtbl j).extent.points := by
  have hself : setSymrg mm i (mm.symrgtbl i) = mm := by
    simp [setSymrg]
  have h := inUse_setSymrg mm i (mm.symrgtbl i) b
  rwa [hself] at h

theorem Reached.symrg (h : Reached mm x) (i : Fin maxSymtblSz) {rg : VmRg} (hrg : rg.Small) :
    Reached (setSymrg mm i rg) x where
  first := h.first.update_symrg i rg
  sbrk := h.sbrk
  entries := by
    intro j
    by_cases hji : j = i
    · rwa [hji, symrgtbl_setSymrg_self]
    · rw [symrgtbl_setSymrg_of_ne mm hji]
      exact h.entries j
  free := h.free

theorem Reached.area (h : Reached mm x) {rgs : List VmRg} (hrgs : ∀ rg ∈ rgs, rg.Small) :
    Reached (setArea mm 0 { x with vmFreergList := rgs }) { x with vmFreergList := rgs } where
  first := h.first.update_area rgs
  sbrk := h.sbrk
  entries := h.entries
  free := hrgs

/-! ### One call -/

/-- What is given out of a small region is small, and so is what is left. -/
theorem small_split {pre post : List VmRg} {rg : VmRg} {size : Addr}
    (hrgs : ∀ rg' ∈ pre ++ rg :: post, rg'.Small) (hsize : size.toNat < 2 ^ 31)
    (hfits : rg.Fits size) :
    VmRg.Small ⟨rg.rgStart, rg.rgStart + size⟩ ∧
      ∀ rg' ∈ pre ++ leftover size rg post ++ post, rg'.Small := by
  have hrg : rg.Small := hrgs rg (List.mem_append_right _ List.mem_cons_self)
  have hend := hrg.wellFormed.toNat_add hsize
  have hle : (rg.rgStart + size).toNat ≤ rg.rgEnd.toNat := BitVec.le_def.mp hfits
  obtain ⟨-, hlt⟩ := hrg
  refine ⟨⟨by simp only; omega, by simp only; omega⟩, ?_⟩
  intro rg' hrg'
  rcases List.mem_append.mp hrg' with hrg' | hpost
  · rcases List.mem_append.mp hrg' with hpre | hleft
    · exact hrgs rg' (List.mem_append_left _ hpre)
    · rw [leftover] at hleft
      split_ifs at hleft with hlt'
      · rw [List.mem_singleton.mp hleft]
        exact ⟨hle, hlt⟩
      · rw [List.mem_singleton.mp hleft]
        exact ⟨Nat.le_refl _, hlt⟩
      · cases hleft
  · exact hrgs rg' (List.mem_append_right _ (List.mem_cons_of_mem _ hpost))

/-- **What `__alloc` keeps**: all but what only the entry had. -/
theorem Reached.alloc_kept (h : Reached mm x) (rgid : Fin maxSymtblSz) {size : Addr}
    (hsize : size.toNat < 2 ^ 31) :
    ∃ allocAddr mm' x', alloc 0 (BitVec.ofNat 32 rgid) size mm = some (0, allocAddr, mm') ∧
      Reached mm' x' ∧ ∀ b, Kept mm' b ↔
        (∃ j, j ≠ rgid ∧ b ∈ (mm.symrgtbl j).extent.points) ∨ b ∈ covered mm.freeRegions ∨
          ((∀ rg ∈ mm.freeRegions, rg.length < size.toNat) ∧ b < size.toNat) := by
  have hword : ofInt (toInt size) = size := BitVec.eq_of_toNat_eq (toNat_ofInt_toInt_of_lt hsize)
  have hfits : ∀ rg ∈ x.vmFreergList, rg.Fits size ↔ size.toNat ≤ rg.length :=
    fun rg hrg => (h.free rg hrg).wellFormed.fits_iff hsize
  rcases takeFit_spec size x.vmFreergList with
    ⟨hnone, hall⟩ | ⟨pre, rg, post, hrgs, hpre, hrg, hsome⟩
  · have hfree := h.first.curVma.getFreeVmrgArea_of_none (hword.symm ▸ hnone)
    have hzero : ofInt (toInt x.sbrk) = 0 := by
      rw [h.sbrk]
      decide
    have hend : (0 : Addr) + size = size := BitVec.zero_add size
    have halloc := h.first.alloc_grow rgid hfree h.first
    rw [hzero, hend] at halloc
    have hsmall : VmRg.Small ⟨0, size⟩ := ⟨Nat.zero_le _, hsize⟩
    refine ⟨_, _, x, halloc, h.symrg rgid hsmall, ?_⟩
    intro b
    have hshort : ∀ rg ∈ mm.freeRegions, rg.length < size.toNat := by
      intro rg hrg
      rw [h.freeRegions] at hrg
      have := mt (hfits rg hrg).mpr (hall rg hrg)
      omega
    have hnew : b ∈ (VmRg.extent ⟨0, size⟩).points ↔ b < size.toNat :=
      and_iff_right (Nat.zero_le b)
    have hsame : (setSymrg mm rgid ⟨0, size⟩).freeRegions = mm.freeRegions := rfl
    rw [Kept, inUse_setSymrg, hnew, hsame, and_iff_right hshort]
    exact or_assoc.trans (or_comm.trans or_assoc)
  · have hmem : rg ∈ x.vmFreergList := by
      rw [hrgs]
      exact List.mem_append_right _ List.mem_cons_self
    have hwf := (h.free rg hmem).wellFormed
    have hsome' : takeFit (ofInt (toInt size)) x.vmFreergList =
        some (⟨rg.rgStart, rg.rgStart + size⟩, pre ++ leftover size rg post ++ post) := by
      rw [hword]
      exact hsome
    have hfree := h.first.curVma.getFreeVmrgArea_of_some hsome' (Nat.le_trans hwf.1 hwf.2)
    obtain ⟨hnew, hleft⟩ := small_split (hrgs ▸ h.free) hsize hrg
    have h' := (h.area hleft).symrg rgid hnew
    refine ⟨_, _, _, h.first.alloc_found rgid hfree, h', ?_⟩
    intro b
    have hlong : ¬ ∀ rg' ∈ mm.freeRegions, rg'.length < size.toNat := by
      intro hshort
      rw [h.freeRegions] at hshort
      have := (hfits rg hmem).mp hrg
      have := hshort rg hmem
      omega
    have hsplit : covered (pre ++ leftover size rg post ++ post) ∪
        (VmRg.extent ⟨rg.rgStart, rg.rgStart + size⟩).points = covered (pre ++ rg :: post) :=
      covered_split hwf hsize hrg
    rw [← hrgs, ← h.freeRegions] at hsplit
    rw [Kept, inUse_setSymrg, h'.freeRegions, ← hsplit]
    simp only [hlong, false_and, or_false]
    exact or_assoc.trans (or_comm.trans or_assoc)

/-- A region with no address in it has no byte. -/
theorem not_mem_points_of_le {rg : VmRg} (h : rg.rgEnd ≤ rg.rgStart) (b : ℕ) :
    b ∉ rg.extent.points := by
  rintro ⟨hle, hlt⟩
  exact absurd (Nat.lt_of_le_of_lt hle hlt) (Nat.not_lt.mpr (BitVec.le_def.mp h))

/-- **What `__free` keeps**: everything. -/
theorem Reached.free_kept (h : Reached mm x) (rgid : Fin maxSymtblSz) :
    ∃ stat mm' x', Mem.free (BitVec.ofNat 32 rgid) mm = some (stat, mm') ∧ Reached mm' x' ∧
      ∀ b, Kept mm' b ↔ Kept mm b := by
  have hzero : VmRg.Small ⟨0, 0⟩ := ⟨Nat.le_refl _, by decide⟩
  have h₀ := h.symrg rgid hzero
  -- with the entry cleared, what only the entry had is gone
  have hcleared : ∀ b, InUse (setSymrg mm rgid ⟨0, 0⟩) b ↔
      ∃ j, j ≠ rgid ∧ b ∈ (mm.symrgtbl j).extent.points := by
    intro b
    rw [inUse_setSymrg]
    exact or_iff_right (not_mem_points_of_le (by decide) b)
  have hfree : (setSymrg mm rgid ⟨0, 0⟩).freeRegions = mm.freeRegions := rfl
  simp only [Mem.free, symrg_ofNat, enlistVmFreergList, h₀.first.area_eq, Option.bind_eq_bind,
    Option.bind_some]
  split_ifs with hid hno hempty
  · exact ⟨_, _, x, rfl, h, fun _ => Iff.rfl⟩
  · exact ⟨_, _, x, rfl, h, fun _ => Iff.rfl⟩
  · refine ⟨_, _, x, rfl, h₀, ?_⟩
    intro b
    rw [Kept, Kept, hcleared, hfree, inUse_iff mm rgid,
      or_iff_right (not_mem_points_of_le hempty b)]
  · have hsmall : ∀ rg ∈ mm.symrgtbl rgid :: x.vmFreergList, rg.Small :=
      List.forall_mem_cons.mpr ⟨h.entries rgid, h.free⟩
    have h' := h₀.area hsmall
    refine ⟨_, _, _, rfl, h', ?_⟩
    intro b
    have hcover : b ∈ covered (mm.symrgtbl rgid :: x.vmFreergList) ↔
        b ∈ (mm.symrgtbl rgid).extent.points ∨ b ∈ covered x.vmFreergList := by
      simp only [covered, List.map_cons, Extent.cover_cons, Set.mem_union]
    have hsame : InUse (setArea (setSymrg mm rgid ⟨0, 0⟩) 0
        { x with vmFreergList := mm.symrgtbl rgid :: x.vmFreergList }) b ↔
          InUse (setSymrg mm rgid ⟨0, 0⟩) b := Iff.rfl
    rw [Kept, Kept, hsame, hcleared, h'.freeRegions, hcover, h.freeRegions, inUse_iff mm rgid]
    exact or_left_comm.trans or_assoc.symm

/-! ### Runs -/

/-- The area is there. -/
def InRun (mm : Mm) : Prop := ∃ x, Reached mm x

/-- The call goes through, and keeps what it should just when the entry is spared; it keeps what is
free in any case. -/
theorem InRun.step (h : InRun mm) (c : Call) :
    InRun (stutter call c mm) ∧
      (Spares mm c ↔ ∀ b, InUse mm b → Kept (stutter call c mm) b) ∧
        ∀ b ∈ covered mm.freeRegions, Kept (stutter call c mm) b := by
  obtain ⟨x, h⟩ := h
  cases c with
  | alloc rgid size =>
    obtain ⟨_, mm', x', halloc, h', hkept⟩ := h.alloc_kept rgid size.2.2
    have hcall : call (.alloc rgid size) mm = some mm' := by
      rw [call, halloc]
      rfl
    have hbreak : ∀ b, (∃ x ∈ mm.areas, x.sbrk.toNat ≤ b ∧ b < x.sbrk.toNat + size.1.toNat) ↔
        b < size.1.toNat := by
      simp [Mm.areas, h.first.mmap, h.sbrk]
    rw [stutter_of_some hcall]
    refine ⟨⟨x', h'⟩, ?_, fun b hb => (hkept b).mpr (.inr (.inl hb))⟩
    simp only [Spares, hbreak, ← hkept]
    constructor
    · intro hspares b hb
      rcases (inUse_iff mm rgid b).mp hb with hentry | hother
      · exact hspares b hentry
      · exact (hkept b).mpr (.inl hother)
    · intro hall b hb
      exact hall b ⟨rgid, hb⟩
  | free rgid =>
    obtain ⟨_, mm', x', hfree, h', hkept⟩ := h.free_kept rgid
    have hcall : call (.free rgid) mm = some mm' := by
      rw [call, hfree]
      rfl
    rw [stutter_of_some hcall]
    refine ⟨⟨x', h'⟩, ?_, fun b hb => (hkept b).mpr (.inr hb)⟩
    exact iff_of_true trivial fun b hb => (hkept b).mpr (.inl hb)

/-- **When nothing is lost**: exactly in the runs in which the entry is spared at every
`__alloc`. -/
theorem nothingLost_iff (fifoPgn : Option (List Addr)) (calls : List Call) :
    NothingLost calls (start fifoPgn) ↔ Along (stutter call) Spares calls (start fifoPgn) := by
  have hstart : InRun (start fifoPgn) := ⟨_, reached_start fifoPgn⟩
  refine kept_iff_along (fun c mm h => (h.step c).1) (fun mm b hb => .inl hb)
    (fun c mm h => (h.step c).2.1) ?_ hstart
  intro c mm h hspares b hb
  rcases hb with hb | hb
  · exact (h.step c).2.1.mp hspares b hb
  · exact (h.step c).2.2 b hb

/-- `__alloc(0, rgid, 200)` and then `__alloc(0, rgid, 80)`. -/
def twice (rgid : Fin maxSymtblSz) : List Call :=
  [.alloc rgid ⟨200, by decide⟩, .alloc rgid ⟨80, by decide⟩]

/-- An entry allocated twice: of its first region the last 120 bytes are lost. -/
theorem twice_loses : ¬ NothingLost (twice 0) (start (some [])) := by
  intro h
  have hfirst : ((run (stutter call) ((twice 0).take 1) (start (some []))).symrgtbl 0) =
      ⟨0, 200⟩ := by decide +kernel
  have hentries : ∀ i,
      ((run (stutter call) (twice 0) (start (some []))).symrgtbl i).rgEnd ≤ 80 := by decide +kernel
  have hfree : (run (stutter call) (twice 0) (start (some []))).freeRegions = [] := rfl
  have hused : InUse (run (stutter call) ((twice 0).take 1) (start (some []))) 150 := by
    refine ⟨0, ?_⟩
    rw [hfirst]
    exact ⟨by decide, by decide⟩
  rcases h ((twice 0).take 1) ((twice 0).drop 1) ⟨[], rfl⟩ 150 hused with ⟨i, -, hlt⟩ | hb
  · have hle : _ ≤ (80 : Addr).toNat := BitVec.le_def.mp (hentries i)
    have hlt :
        150 < ((run (stutter call) (twice 0) (start (some []))).symrgtbl i).rgEnd.toNat := hlt
    have h80 : (80 : Addr).toNat = 80 := rfl
    omega
  · have hb : 150 ∈ covered (run (stutter call) (twice 0) (start (some []))).freeRegions := hb
    rw [hfree] at hb
    obtain ⟨e, he, -⟩ := hb
    cases he

end Ossim.Mem
