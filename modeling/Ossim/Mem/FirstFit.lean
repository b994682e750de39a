import Ossim.Machine.Extents
import Ossim.Mem.Region

/-!
# First fit

`get_free_vmrg_area` takes the first free region that is long enough, gives out its start
and keeps its end. What is kept stays in the place of the region. When nothing is kept the
node is to go: it takes over what the next node holds and that one is freed; and the last node,
which has no next one, stays with an empty region.

So the list after is the list before with one region replaced by what is left of it
(`takeFit_spec`): the bytes it covers are those it covered but the ones given out
(`firstFit_exact`).
-/

namespace Ossim.Mem

open Machine

/-! ### Regions as extents -/

/-- The addresses of a region. -/
def VmRg.extent (rg : VmRg) : Extent ℕ := ⟨rg.rgStart.toNat, rg.rgEnd.toNat⟩

/-- The bytes of the regions of a list. -/
def covered (rgs : List VmRg) : Set ℕ := Extent.cover (rgs.map VmRg.extent)

/-- No two regions of the list share a byte. -/
def RegionsApart (rgs : List VmRg) : Prop := Extent.Apart (rgs.map VmRg.extent)

/-- The region ends where it starts or after it, and not beyond the 57 bits of an address. -/
def VmRg.WellFormed (rg : VmRg) : Prop :=
  rg.rgStart.toNat ≤ rg.rgEnd.toNat ∧ rg.rgEnd.toNat ≤ 2 ^ 57

/-- How many bytes a region has. -/
def VmRg.length (rg : VmRg) : ℕ := rg.rgEnd.toNat - rg.rgStart.toNat

/-! ### The loop -/

/-- The test of the loop. -/
def VmRg.Fits (size : Addr) (rg : VmRg) : Prop := rg.rgStart + size ≤ rg.rgEnd

/-- What is in the place of a region after its first `size` bytes are given out, where the
regions `post` come after it. -/
def leftover (size : Addr) (rg : VmRg) (post : List VmRg) : List VmRg :=
  if rg.rgStart + size < rg.rgEnd then [⟨rg.rgStart + size, rg.rgEnd⟩]
  else if post = [] then [⟨rg.rgEnd, rg.rgEnd⟩] else []

instance (size : Addr) (rg : VmRg) : Decidable (rg.Fits size) :=
  inferInstanceAs (Decidable (_ ≤ _))

/-- One turn of the loop. -/
theorem takeFit_cons (size : Addr) (rg : VmRg) (rgs : List VmRg) :
    takeFit size (rg :: rgs) =
      if rg.Fits size then
        some (⟨rg.rgStart, rg.rgStart + size⟩, leftover size rg rgs ++ rgs)
      else (takeFit size rgs).map fun r => (r.1, rg :: r.2) := by
  rw [takeFit.eq_def, leftover]
  by_cases hfits : rg.rgStart + size ≤ rg.rgEnd
  · rw [if_pos (show rg.Fits size from hfits)]
    simp only [if_pos hfits]
    cases rgs with
    | nil => simp only [if_true]; split_ifs <;> rfl
    | cons nextrg rest => simp only [reduceCtorEq, if_false]; split_ifs <;> rfl
  · rw [if_neg (show ¬ rg.Fits size from hfits)]
    exact if_neg hfits

/-- **What the loop does**: it finds no region that fits, or it takes the first that does. -/
theorem takeFit_spec (size : Addr) (rgs : List VmRg) :
    (takeFit size rgs = none ∧ ∀ rg ∈ rgs, ¬ rg.Fits size) ∨
      ∃ pre rg post, rgs = pre ++ rg :: post ∧ (∀ rg' ∈ pre, ¬ rg'.Fits size) ∧ rg.Fits size ∧
        takeFit size rgs = some (⟨rg.rgStart, rg.rgStart + size⟩,
          pre ++ leftover size rg post ++ post) := by
  induction rgs with
  | nil => exact .inl ⟨rfl, by simp⟩
  | cons rg rgs ih =>
    rw [takeFit_cons]
    by_cases hfits : rg.Fits size
    · exact .inr ⟨[], rg, rgs, rfl, by simp, hfits, if_pos hfits⟩
    · rw [if_neg hfits]
      rcases ih with ⟨hnone, hall⟩ | ⟨pre, rg', post, rfl, hpre, hrg', hsome⟩
      · refine .inl ⟨by rw [hnone, Option.map_none], ?_⟩
        intro rg' hrg'
        rcases List.mem_cons.mp hrg' with rfl | hrg'
        · exact hfits
        · exact hall rg' hrg'
      · refine .inr ⟨rg :: pre, rg', post, rfl, ?_, hrg', by rw [hsome, Option.map_some]; rfl⟩
        intro rg'' hrg''
        rcases List.mem_cons.mp hrg'' with rfl | hrg''
        · exact hfits
        · exact hpre rg'' hrg''

/-! ### Bytes -/

variable {rg : VmRg} {size : Addr} {post : List VmRg}

/-- The end of what is given out does not wrap around. -/
theorem VmRg.WellFormed.toNat_add (h : rg.WellFormed) (hsize : size.toNat < 2 ^ 31) :
    (rg.rgStart + size).toNat = rg.rgStart.toNat + size.toNat := by
  obtain ⟨hle, hmax⟩ := h
  rw [BitVec.toNat_add]
  omega

/-- The test of the loop is that the region is long enough. -/
theorem VmRg.WellFormed.fits_iff (h : rg.WellFormed) (hsize : size.toNat < 2 ^ 31) :
    rg.Fits size ↔ size.toNat ≤ rg.length := by
  have hle := h.1
  rw [VmRg.Fits, BitVec.le_def, h.toNat_add hsize, VmRg.length]
  omega

/-- What is left of a region, and what is given out of it. -/
theorem covered_leftover (post : List VmRg) (h : rg.WellFormed) (hsize : size.toNat < 2 ^ 31)
    (hfits : rg.Fits size) :
    covered (leftover size rg post) ∪ (VmRg.extent ⟨rg.rgStart, rg.rgStart + size⟩).points =
      rg.extent.points := by
  have hend := h.toNat_add hsize
  have hstart : rg.rgStart.toNat ≤ (rg.rgStart + size).toNat := by omega
  have hle : (rg.rgStart + size).toNat ≤ rg.rgEnd.toNat := BitVec.le_def.mp hfits
  have hcut : (VmRg.extent ⟨rg.rgStart + size, rg.rgEnd⟩).points ∪
      (VmRg.extent ⟨rg.rgStart, rg.rgStart + size⟩).points = rg.extent.points :=
    Extent.points_cut hstart hle
  by_cases hlt : rg.rgStart + size < rg.rgEnd
  · rw [leftover, if_pos hlt, ← hcut]
    simp [covered]
  · have heq : rg.rgStart + size = rg.rgEnd := by
      rw [BitVec.lt_def] at hlt
      exact BitVec.eq_of_toNat_eq (by omega)
    rw [leftover, if_neg hlt, ← hcut, heq]
    split_ifs <;> simp [covered, VmRg.extent, Extent.points]

/-- … which share no byte. -/
theorem not_mem_leftover (size : Addr) (rg : VmRg) (post : List VmRg) :
    ∀ b ∈ covered (leftover size rg post),
      b ∉ (VmRg.extent ⟨rg.rgStart, rg.rgStart + size⟩).points := by
  intro b hb
  rw [leftover] at hb
  split_ifs at hb
  · obtain ⟨e, he, hb⟩ := hb
    obtain rfl := List.mem_singleton.mp he
    exact Extent.not_mem_cut hb
  · simp [covered, VmRg.extent, Extent.points] at hb
  · simp [covered] at hb

theorem wellFormed_leftover (h : rg.WellFormed) :
    ∀ rg' ∈ leftover size rg post, rg'.WellFormed := by
  intro rg' hrg'
  rw [leftover] at hrg'
  split_ifs at hrg' with hlt hnil
  · rw [List.mem_singleton.mp hrg']
    exact ⟨Nat.le_of_lt (BitVec.lt_def.mp hlt), h.2⟩
  · rw [List.mem_singleton.mp hrg']
    exact ⟨Nat.le_refl _, h.2⟩
  · cases hrg'

theorem apart_leftover : RegionsApart (leftover size rg post) := by
  rw [leftover, RegionsApart, Extent.Apart]
  split_ifs <;> simp

/-! ### The list after -/

variable {pre : List VmRg}

/-- The bytes of the list after and those given out are the bytes of the list before … -/
theorem covered_split (h : rg.WellFormed) (hsize : size.toNat < 2 ^ 31) (hfits : rg.Fits size) :
    covered (pre ++ leftover size rg post ++ post) ∪
      (VmRg.extent ⟨rg.rgStart, rg.rgStart + size⟩).points = covered (pre ++ rg :: post) := by
  have hcut := covered_leftover post h hsize hfits
  simp only [covered, List.map_append, List.map_cons]
  exact Extent.cover_carve hcut

/-- … and none of them is given out, if no two regions share one. -/
theorem covered_split_of_apart (h : rg.WellFormed) (hsize : size.toNat < 2 ^ 31)
    (hfits : rg.Fits size) (hapart : RegionsApart (pre ++ rg :: post)) :
    covered (pre ++ leftover size rg post ++ post) =
      covered (pre ++ rg :: post) \ (VmRg.extent ⟨rg.rgStart, rg.rgStart + size⟩).points := by
  have hcut := covered_leftover post h hsize hfits
  have hdisj := not_mem_leftover size rg post
  simp only [RegionsApart, List.map_append, List.map_cons] at hapart
  simp only [covered, List.map_append, List.map_cons]
  exact Extent.cover_carve_of_apart hcut hdisj hapart

theorem apart_split (h : rg.WellFormed) (hsize : size.toNat < 2 ^ 31) (hfits : rg.Fits size)
    (hapart : RegionsApart (pre ++ rg :: post)) :
    RegionsApart (pre ++ leftover size rg post ++ post) := by
  have hcut := covered_leftover post h hsize hfits
  simp only [RegionsApart, List.map_append, List.map_cons] at hapart ⊢
  refine hapart.carve apart_leftover ?_
  intro e he a ha
  rw [← hcut]
  exact .inl ⟨e, he, ha⟩

theorem wellFormed_split (hwf : ∀ rg' ∈ pre ++ rg :: post, rg'.WellFormed) :
    ∀ rg' ∈ pre ++ leftover size rg post ++ post, rg'.WellFormed := by
  intro rg' hrg'
  have hrg : rg.WellFormed := hwf rg (List.mem_append_right _ List.mem_cons_self)
  rcases List.mem_append.mp hrg' with hrg' | hpost
  · rcases List.mem_append.mp hrg' with hpre | hleft
    · exact hwf rg' (List.mem_append_left _ hpre)
    · exact wellFormed_leftover hrg rg' hleft
  · exact hwf rg' (List.mem_append_right _ (List.mem_cons_of_mem _ hpost))

/-! ### The area -/

/-- The pointer to the area is not `NULL`. -/
structure CurVma (mm : Mm) (vmaid : Word) (i : ℕ) (x : VmArea) : Prop where
  /-- `get_vma_by_num` finds the area at place `i`. -/
  found : getVmaByNum mm vmaid = some (some i)
  /-- The area there. -/
  area : area mm i = some x

variable {mm : Mm} {vmaid : Word} {i : ℕ} {x : VmArea}

/-- No region fits. -/
theorem CurVma.getFreeVmrgArea_of_none (h : CurVma mm vmaid i x) {size : Word}
    (hnone : takeFit (ofInt size) x.vmFreergList = none) :
    getFreeVmrgArea vmaid size mm = some (none, mm) := by
  simp only [getFreeVmrgArea, h.found, h.area, hnone, Option.bind_eq_bind, Option.bind_some]

/-- One does, and it does not start at the address that stands for no region. -/
theorem CurVma.getFreeVmrgArea_of_some (h : CurVma mm vmaid i x) {size : Word} {newrg : VmRg}
    {rgs' : List VmRg} (hsome : takeFit (ofInt size) x.vmFreergList = some (newrg, rgs'))
    (hstart : newrg.rgStart.toNat ≤ 2 ^ 57) :
    getFreeVmrgArea vmaid size mm =
      some (some newrg, setArea mm i { x with vmFreergList := rgs' }) := by
  have hne : newrg.rgStart ≠ ofInt (-1) := by
    intro heq
    rw [heq] at hstart
    exact absurd hstart (by decide)
  simp only [getFreeVmrgArea, h.found, h.area, hsome, if_neg hne, Option.bind_eq_bind,
    Option.bind_some]

/-- A region found is the entry's. -/
theorem CurVma.alloc_found (h : CurVma mm vmaid i x) {rgid : Word} {j : Fin maxSymtblSz}
    (hj : symrg rgid = some j) {mm₁ : Mm}
    (hfree : getFreeVmrgArea vmaid (toInt size) mm = some (some rg, mm₁)) :
    alloc vmaid rgid size mm = some (0, rg.rgStart, setSymrg mm₁ j rg) := by
  simp only [alloc, h.found, hfree, hj, Option.bind_eq_bind, Option.bind_some]

/-- With none found, the entry's region starts at the break as an `int`, and the break stays. -/
theorem CurVma.alloc_grow (h : CurVma mm vmaid i x) {rgid : Word} {j : Fin maxSymtblSz}
    (hj : symrg rgid = some j) {mm₁ : Mm} {x₁ : VmArea}
    (hfree : getFreeVmrgArea vmaid (toInt size) mm = some (none, mm₁))
    (harea : Mem.area mm₁ i = some x₁) :
    alloc vmaid rgid size mm = some (0, ofInt (toInt x₁.sbrk),
      setSymrg mm₁ j ⟨ofInt (toInt x₁.sbrk), ofInt (toInt x₁.sbrk) + size⟩) := by
  have hcall : syscall 17 ⟨2, ofInt vmaid, size⟩ = some (0, ⟨2, ofInt vmaid, size⟩) := rfl
  simp only [alloc, h.found, hfree, harea, hcall, hj, Option.bind_eq_bind, Option.bind_some]

/-- `newrg` is the first `size` bytes of the first region of `rgs` that has as many, and `rgs'` has
what is left of the region in its place. -/
def FirstFit (size : ℕ) (rgs : List VmRg) (newrg : VmRg) (rgs' : List VmRg) : Prop :=
  ∃ pre rg post left, rgs = pre ++ rg :: post ∧ (∀ rg' ∈ pre, rg'.length < size) ∧
    size ≤ rg.length ∧ newrg.rgStart = rg.rgStart ∧
    newrg.rgEnd.toNat = rg.rgStart.toNat + size ∧ rgs' = pre ++ left ++ post ∧
    covered left = rg.extent.points \ newrg.extent.points

/-- **First fit is exact.** Of regions that share no byte: if one is long enough the first of these
is split, and the list after covers what it covered but the bytes given out; and if none is
nothing changes. -/
theorem firstFit_exact (h : CurVma mm vmaid i x) {size : Word} (hsize : size.toNat < 2 ^ 31)
    (hwf : ∀ rg ∈ x.vmFreergList, rg.WellFormed) (hapart : RegionsApart x.vmFreergList) :
    ((∃ rg ∈ x.vmFreergList, size.toNat ≤ rg.length) →
      ∃ newrg rgs', getFreeVmrgArea vmaid size mm =
          some (some newrg, setArea mm i { x with vmFreergList := rgs' }) ∧
        FirstFit size.toNat x.vmFreergList newrg rgs' ∧
        covered rgs' = covered x.vmFreergList \ newrg.extent.points ∧
        RegionsApart rgs' ∧ ∀ rg ∈ rgs', rg.WellFormed) ∧
      ((¬ ∃ rg ∈ x.vmFreergList, size.toNat ≤ rg.length) →
        getFreeVmrgArea vmaid size mm = some (none, mm)) := by
  have hword : (ofInt size).toNat = size.toNat := toNat_ofInt_of_lt hsize
  have hsize' : (ofInt size).toNat < 2 ^ 31 := by omega
  have hfits : ∀ rg ∈ x.vmFreergList, rg.Fits (ofInt size) ↔ size.toNat ≤ rg.length := by
    intro rg hrg
    rw [(hwf rg hrg).fits_iff hsize', hword]
  rcases takeFit_spec (ofInt size) x.vmFreergList with
    ⟨hnone, hall⟩ | ⟨pre, rg, post, hrgs, hpre, hrg, hsome⟩
  · refine ⟨?_, fun _ => h.getFreeVmrgArea_of_none hnone⟩
    rintro ⟨rg, hrg, hlen⟩
    exact absurd ((hfits rg hrg).mpr hlen) (hall rg hrg)
  · rw [hrgs] at hwf hapart hfits
    have hmem : rg ∈ pre ++ rg :: post := List.mem_append_right _ List.mem_cons_self
    have hrg' : rg.WellFormed := hwf rg hmem
    have hlen : size.toNat ≤ rg.length := (hfits rg hmem).mp hrg
    have hend := hrg'.toNat_add hsize'
    have hcut := covered_leftover post hrg' hsize' hrg
    have hdisj := not_mem_leftover (ofInt size) rg post
    refine ⟨fun _ => ⟨_, _, h.getFreeVmrgArea_of_some hsome (Nat.le_trans hrg'.1 hrg'.2), ?_⟩,
      fun hno => absurd ⟨rg, hrgs ▸ hmem, hlen⟩ hno⟩
    rw [hrgs]
    refine ⟨⟨pre, rg, post, _, rfl, ?_, hlen, rfl, by rw [hend, hword], rfl, ?_⟩,
      covered_split_of_apart hrg' hsize' hrg hapart, apart_split hrg' hsize' hrg hapart,
      wellFormed_split hwf⟩
    · intro rg' hpre'
      have := mt (hfits rg' (List.mem_append_left _ hpre')).mpr (hpre rg' hpre')
      omega
    · rw [← hcut]
      ext b
      constructor
      · intro hb
        exact ⟨.inl hb, hdisj b hb⟩
      · rintro ⟨hb | hb, hnew⟩
        · exact hb
        · exact absurd hb hnew

/-- Three free regions and `50` bytes: the second one, which is used up, is taken out of the
list. -/
theorem firstFit_used_up :
    getFreeVmrgArea 0 50 ⟨some [⟨0, 0, 0, 400, [⟨0, 40⟩, ⟨100, 150⟩, ⟨200, 300⟩]⟩],
        fun _ => ⟨0, 0⟩, none⟩ =
      some (some ⟨100, 150⟩, ⟨some [⟨0, 0, 0, 400, [⟨0, 40⟩, ⟨200, 300⟩]⟩], fun _ => ⟨0, 0⟩, none⟩) ∧
      ∃ newrg rgs', FirstFit 50 [⟨0, 40⟩, ⟨100, 150⟩, ⟨200, 300⟩] newrg rgs' ∧
        covered rgs' = covered [⟨0, 40⟩, ⟨100, 150⟩, ⟨200, 300⟩] \ newrg.extent.points := by
  have hwf : ∀ rg ∈ [(⟨0, 40⟩ : VmRg), ⟨100, 150⟩, ⟨200, 300⟩], rg.WellFormed := by
    simp [VmRg.WellFormed]
  have hapart : RegionsApart [⟨0, 40⟩, ⟨100, 150⟩, ⟨200, 300⟩] := by
    have hpair : ∀ rg rg' : VmRg, rg.extent.hi ≤ rg'.extent.lo →
        ∀ b ∈ rg.extent.points, b ∉ rg'.extent.points :=
      fun _ _ h _ => Extent.not_mem_points_of_hi_le h
    refine .cons ?_ (.cons ?_ (List.pairwise_singleton ..))
    · exact List.forall_mem_cons.mpr ⟨hpair ⟨0, 40⟩ ⟨100, 150⟩ (by simp [VmRg.extent]),
        List.forall_mem_cons.mpr ⟨hpair ⟨0, 40⟩ ⟨200, 300⟩ (by simp [VmRg.extent]), by simp⟩⟩
    · exact List.forall_mem_cons.mpr
        ⟨hpair ⟨100, 150⟩ ⟨200, 300⟩ (by simp [VmRg.extent]), by simp⟩
  have hvma : CurVma
      ⟨some [⟨0, 0, 0, 400, [⟨0, 40⟩, ⟨100, 150⟩, ⟨200, 300⟩]⟩], fun _ => ⟨0, 0⟩, none⟩
      0 0 ⟨0, 0, 0, 400, [⟨0, 40⟩, ⟨100, 150⟩, ⟨200, 300⟩]⟩ := ⟨rfl, rfl⟩
  have hsize : (50 : Word).toNat < 2 ^ 31 := by decide
  obtain ⟨newrg, rgs', -, hfit, hcov, -⟩ := (firstFit_exact hvma hsize hwf hapart).1
    ⟨⟨100, 150⟩, by simp, by decide⟩
  exact ⟨rfl, newrg, rgs', hfit, hcov⟩

end Ossim.Mem
