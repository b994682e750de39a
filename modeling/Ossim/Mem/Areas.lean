import Ossim.Mem.FirstFit

/-!
# Looking areas up and keeping them apart

`get_vma_by_num` walks down the areas in the order of their ids and stops at the first
whose id is not below the one it is given. Its test for the end of the list stands before
the step to the next node and not after it, so that past the last area it follows the
null pointer; and before the last it does not look whether the id it stops at is the one
sought. An id of the list is found, and for any other the result is not the `NULL` its
callers test for (`getVmaByNum_exact_iff`).

`validate_overlap_vm_area` compares no area with the planned range: the macro `OVERLAP` is
defined as `(0)`, and the arguments it is given are the bounds of the area itself. So it
accepts every range that is not empty (`validateOverlapVmArea_eq`).
-/

namespace Ossim.Mem

open Machine

/-! ### Ids -/

/-- The area has the id, as a number. -/
def HasId (vmaid : Word) (x : VmArea) : Prop := (x.vmId.toNat : ℤ) = vmaid.toInt

instance (vmaid : Word) (x : VmArea) : Decidable (HasId vmaid x) :=
  inferInstanceAs (Decidable ((x.vmId.toNat : ℤ) = vmaid.toInt))

/-- An id below an `int` is below it as an `int`. -/
theorem slt_of_lt {a : Addr} {vmaid : Word} (h : (a.toNat : ℤ) < vmaid.toInt) :
    (toInt a).slt vmaid = true := by
  have hmax : vmaid.toInt < 2 ^ 31 := BitVec.toInt_lt
  have hval : (toInt a).toInt = a.toNat := (toInt_toInt_eq_iff a).mpr (by omega)
  rw [BitVec.slt_iff_toInt_lt, hval]
  exact h

/-- The id itself is not. -/
theorem HasId.not_slt {x : VmArea} {vmaid : Word} (h : HasId vmaid x) :
    (toInt x.vmId).slt vmaid = false := by
  have hmax : vmaid.toInt < 2 ^ 31 := BitVec.toInt_lt
  have hval : (toInt x.vmId).toInt = x.vmId.toNat :=
    (toInt_toInt_eq_iff x.vmId).mpr (by rw [HasId] at h; omega)
  rw [← Bool.not_eq_true, BitVec.slt_iff_toInt_lt, hval, h]
  exact lt_irrefl _

/-! ### `get_vma_by_num` -/

/-- The loop goes off the end of the list only if every id is below the one sought. -/
theorem exists_vmaFrom {vmaid : Word} {areas : List VmArea} {x : VmArea} (hx : x ∈ areas)
    (hid : HasId vmaid x) (i : ℕ) : ∃ k < areas.length, vmaFrom vmaid areas i = some (i + k) := by
  induction areas generalizing i with
  | nil => cases hx
  | cons a rest ih =>
    rw [vmaFrom]
    cases hslt : (toInt a.vmId).slt vmaid with
    | false => exact ⟨0, Nat.zero_lt_succ _, rfl⟩
    | true =>
      have hrest : x ∈ rest := by
        rcases List.mem_cons.mp hx with rfl | hx
        · rw [hid.not_slt] at hslt; cases hslt
        · exact hx
      obtain ⟨k, hk, hfrom⟩ := ih hrest (i + 1)
      exact ⟨k + 1, Nat.succ_lt_succ hk, by rw [if_pos rfl, hfrom]; congr 1; omega⟩

/-- In a list in the order of the ids, the loop passes over the areas before the one with the
id and stops at that. -/
theorem vmaFrom_eq {vmaid : Word} {areas : List VmArea}
    (hsorted : areas.Pairwise fun x y => x.vmId < y.vmId) {x : VmArea} (hx : x ∈ areas)
    (hid : HasId vmaid x) (i : ℕ) :
    vmaFrom vmaid areas i = (areas.findIdx? fun x => HasId vmaid x).map (i + ·) := by
  induction areas generalizing i with
  | nil => cases hx
  | cons a rest ih =>
    obtain ⟨hfirst, hrest⟩ := List.pairwise_cons.mp hsorted
    rw [vmaFrom, List.findIdx?_cons]
    by_cases ha : HasId vmaid a
    · rw [ha.not_slt, if_pos (decide_eq_true ha)]
      rfl
    · have hxrest : x ∈ rest := by
        rcases List.mem_cons.mp hx with rfl | hx
        · exact absurd hid ha
        · exact hx
      have hlt : (a.vmId.toNat : ℤ) < vmaid.toInt := by
        rw [← hid]
        exact Int.ofNat_lt.mpr (hfirst x hxrest)
      rw [slt_of_lt hlt, if_pos rfl, if_neg (by simpa using ha), ih hrest hxrest, Option.map_map]
      congr 1
      funext k
      simp only [Function.comp_apply]
      omega

/-- **`get_vma_by_num` answers rightly** just when there are no areas or one of them has the
id: it finds every id of the list, and for an id that is not there it gives another area or
follows the null pointer. -/
theorem getVmaByNum_exact_iff {mm : Mm} {areas : List VmArea} (hmm : mm.mmap = some areas)
    (hsorted : areas.Pairwise fun x y => x.vmId < y.vmId) (vmaid : Word) :
    getVmaByNum mm vmaid = some (areas.findIdx? fun x => HasId vmaid x) ↔
      areas = [] ∨ ∃ x ∈ areas, HasId vmaid x := by
  cases areas with
  | nil => simp [getVmaByNum, hmm]
  | cons a rest =>
    rw [getVmaByNum, hmm]
    simp only [reduceCtorEq, false_or]
    constructor
    · intro h
      obtain ⟨i, -, hfind⟩ := Option.map_eq_some_iff.mp h
      obtain ⟨hlt, hi, -⟩ := List.findIdx?_eq_some_iff_getElem.mp hfind.symm
      exact ⟨(a :: rest)[i], List.getElem_mem hlt, of_decide_eq_true hi⟩
    · rintro ⟨x, hx, hid⟩
      obtain ⟨k, -, hfrom⟩ := exists_vmaFrom hx hid 0
      have hfind : vmaFrom vmaid (a :: rest) 0 = (a :: rest).findIdx? fun x => HasId vmaid x := by
        simpa using vmaFrom_eq hsorted hx hid 0
      rw [← hfind, hfrom]
      rfl

/-- An area with an id that is no `int` is no obstacle to finding the one before it. -/
theorem getVmaByNum_exact_two :
    getVmaByNum ⟨some [⟨3, 0, 0, 0, []⟩, ⟨0x100000000, 0, 0, 0, []⟩], fun _ => ⟨0, 0⟩, some []⟩ 3 =
        some ([(⟨3, 0, 0, 0, []⟩ : VmArea), ⟨0x100000000, 0, 0, 0, []⟩].findIdx?
          fun x => HasId 3 x) ↔
      [(⟨3, 0, 0, 0, []⟩ : VmArea), ⟨0x100000000, 0, 0, 0, []⟩] = [] ∨
        ∃ x ∈ [(⟨3, 0, 0, 0, []⟩ : VmArea), ⟨0x100000000, 0, 0, 0, []⟩], HasId 3 x :=
  getVmaByNum_exact_iff rfl (by decide) 3

/-- With one area, of id `0`, the search for id `1` follows the null pointer. -/
theorem getVmaByNum_past_last :
    [(⟨0, 0, 0, 0, []⟩ : VmArea)].Pairwise (fun x y => x.vmId < y.vmId) ∧
      ¬ (getVmaByNum ⟨some [⟨0, 0, 0, 0, []⟩], fun _ => ⟨0, 0⟩, some []⟩ 1 =
        some ([(⟨0, 0, 0, 0, []⟩ : VmArea)].findIdx? fun x => HasId 1 x)) := by
  decide

/-! ### `validate_overlap_vm_area` -/

/-- `OVERLAP`, which is defined as `(0)`. -/
def overlap (_x1 _x2 _y1 _y2 : Addr) : Bool := false

/-- The loop of `validate_overlap_vm_area`, at place `i` of the areas, with `cur_area` at place
`cur`. -/
def overlapFrom (cur : ℕ) (curArea : VmArea) : List VmArea → ℕ → ℤ
  | [], _ => 0
  | vma :: rest, i =>
    if i ≠ cur ∧ overlap curArea.vmStart curArea.vmEnd vma.vmStart vma.vmEnd then -1
    else overlapFrom cur curArea rest (i + 1)

/-- `validate_overlap_vm_area`. -/
def validateOverlapVmArea (mm : Mm) (vmaid : Word) (vmastart vmaend : Addr) : Option ℤ :=
  if vmastart ≥ vmaend then some (-1)
  else if mm.mmap = some [] then some (-1)
  else do
    match ← getVmaByNum mm vmaid with
    | none => some (-1)
    | some curArea => some (overlapFrom curArea (← area mm curArea) (mm.mmap.getD []) 0)

/-- The addresses of an area. -/
def VmArea.extent (x : VmArea) : Extent ℕ := ⟨x.vmStart.toNat, x.vmEnd.toNat⟩

/-- The planned range shares no address with an area other than `vmaid`. -/
def RangeFree (areas : List VmArea) (vmaid : Word) (vmastart vmaend : Addr) : Prop :=
  ∀ x ∈ areas, ¬ HasId vmaid x →
    ∀ a ∈ (⟨vmastart.toNat, vmaend.toNat⟩ : Extent ℕ).points, a ∉ x.extent.points

/-- The answer is right: `0` for a range that is free, and `-1` for one that is not. -/
def Validates (areas : List VmArea) (vmaid : Word) (vmastart vmaend : Addr) (r : Option ℤ) :
    Prop :=
  RangeFree areas vmaid vmastart vmaend ∧ r = some 0 ∨
    ¬ RangeFree areas vmaid vmastart vmaend ∧ r = some (-1)

/-- No area is found to overlap. -/
theorem overlapFrom_eq (cur : ℕ) (curArea : VmArea) (areas : List VmArea) (i : ℕ) :
    overlapFrom cur curArea areas i = 0 := by
  induction areas generalizing i with
  | nil => rfl
  | cons vma rest ih =>
    rw [overlapFrom, if_neg fun h => Bool.false_ne_true h.2]
    exact ih (i + 1)

/-- Every range that is not empty is accepted, whatever the areas are. -/
theorem validateOverlapVmArea_eq {mm : Mm} {areas : List VmArea} (hmm : mm.mmap = some areas)
    {vmaid : Word} (hid : ∃ x ∈ areas, HasId vmaid x) {vmastart vmaend : Addr}
    (hlt : vmastart < vmaend) : validateOverlapVmArea mm vmaid vmastart vmaend = some 0 := by
  obtain ⟨x, hx, hid⟩ := hid
  have hne : areas ≠ [] := List.ne_nil_of_mem hx
  obtain ⟨k, hk, hfrom⟩ := exists_vmaFrom hx hid 0
  have hfound : getVmaByNum mm vmaid = some (some k) := by
    obtain ⟨a, rest, rfl⟩ := List.exists_cons_of_ne_nil hne
    rw [getVmaByNum, hmm]
    simp only [hfrom, Nat.zero_add, Option.map_some]
  have harea : area mm k = some areas[k] := by
    rw [area, hmm, Option.bind_some, List.getElem?_eq_getElem hk]
  have hstart : ¬ vmastart ≥ vmaend := BitVec.not_le.mpr hlt
  rw [validateOverlapVmArea, if_neg hstart, if_neg (by rw [hmm]; simpa using hne), hfound]
  simp only [Option.bind_eq_bind, Option.bind_some, harea, overlapFrom_eq]

/-- **When the planned range is validated rightly**: when it shares no address with another
area. -/
theorem validateOverlapVmArea_iff {mm : Mm} {areas : List VmArea} (hmm : mm.mmap = some areas)
    {vmaid : Word} (hid : ∃ x ∈ areas, HasId vmaid x) {vmastart vmaend : Addr}
    (hlt : vmastart < vmaend) :
    Validates areas vmaid vmastart vmaend (validateOverlapVmArea mm vmaid vmastart vmaend) ↔
      RangeFree areas vmaid vmastart vmaend := by
  rw [validateOverlapVmArea_eq hmm hid hlt]
  constructor
  · rintro (⟨hfree, -⟩ | ⟨-, hres⟩)
    · exact hfree
    · cases hres
  · exact fun hfree => .inl ⟨hfree, rfl⟩

/-- Beside one other area a range may touch it. -/
theorem validateOverlapVmArea_two :
    Validates [⟨0, 0, 100, 0, []⟩, ⟨1, 200, 300, 0, []⟩] 0 100 200
        (validateOverlapVmArea
          ⟨some [⟨0, 0, 100, 0, []⟩, ⟨1, 200, 300, 0, []⟩], fun _ => ⟨0, 0⟩, some []⟩ 0 100 200) ↔
      RangeFree [⟨0, 0, 100, 0, []⟩, ⟨1, 200, 300, 0, []⟩] 0 100 200 :=
  validateOverlapVmArea_iff rfl ⟨⟨0, 0, 100, 0, []⟩, List.mem_cons_self, by decide⟩ (by decide)

/-- A range that runs into the other area is accepted. -/
theorem validateOverlapVmArea_overlapping :
    ¬ Validates [⟨0, 0, 100, 0, []⟩, ⟨1, 200, 300, 0, []⟩] 0 0 250
      (validateOverlapVmArea
        ⟨some [⟨0, 0, 100, 0, []⟩, ⟨1, 200, 300, 0, []⟩], fun _ => ⟨0, 0⟩, some []⟩ 0 0 250) := by
  rw [validateOverlapVmArea_eq rfl ⟨⟨0, 0, 100, 0, []⟩, List.mem_cons_self, by decide⟩ (by decide)]
  rintro (⟨hfree, -⟩ | ⟨-, hres⟩)
  · exact hfree ⟨1, 200, 300, 0, []⟩ (by simp) (by decide) 200 ⟨by decide, by decide⟩
      ⟨by decide, by decide⟩
  · cases hres

end Ossim.Mem
