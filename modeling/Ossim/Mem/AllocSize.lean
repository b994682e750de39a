import Ossim.Mem.FirstFit
import Ossim.Mem.SymbolTable

/-!
# What an allocation delivers

`__alloc` gets the size as an `addr_t` and passes it to `get_free_vmrg_area` as an `int`; and
it keeps the old break in an `int`. So a size of `2 ^ 31` or more is looked for as another
size, and a break of `2 ^ 31` or more is another address. What is asked for is delivered just
when neither goes wrong on the way that is taken (`delivers_iff`).
-/

namespace Ossim.Mem

/-- The entry has `size` bytes and no end that wraps around, the address returned is its start, and
it starts in a region that was free or at the old break. -/
def Delivers (size : Addr) (i : Fin maxSymtblSz) (x : VmArea) (allocAddr : Addr) (mm : Mm) : Prop :=
  (mm.symrgtbl i).rgEnd.toNat = (mm.symrgtbl i).rgStart.toNat + size.toNat ∧
    allocAddr = (mm.symrgtbl i).rgStart ∧
    ((∃ rg ∈ x.vmFreergList, (mm.symrgtbl i).rgStart.toNat ∈ rg.extent.points) ∨
      (mm.symrgtbl i).rgStart = x.sbrk)

/-- `__alloc` delivers what is asked for if it returns `0`. -/
def AllocDelivers (vmaid rgid : Word) (size : Addr) (x : VmArea) (mm : Mm) : Prop :=
  ∀ allocAddr mm', alloc vmaid rgid size mm = some (0, allocAddr, mm') →
    ∃ i, symrg rgid = some i ∧ Delivers size i x allocAddr mm'

variable {mm : Mm} {vmaid rgid : Word} {size : Addr} {k : ℕ} {x : VmArea} {i : Fin maxSymtblSz}

/-! ### The two ways of `__alloc` -/

/-- What is looked for is the size just when an `int` holds it, if it is the size of a region. -/
theorem ofInt_toInt_eq_iff (h : size.toNat ≤ 2 ^ 57) :
    ofInt (toInt size) = size ↔ size.toNat < 2 ^ 31 := by
  rw [← BitVec.toNat_inj, toNat_ofInt_toInt]
  split_ifs <;> omega

/-- On the first way. -/
theorem delivers_found_iff {rg : VmRg} (hrg : rg ∈ x.vmFreergList) (hwf : rg.WellFormed)
    (hsize : 1 ≤ size.toNat) (hfits : rg.Fits (ofInt (toInt size))) (mm : Mm) :
    Delivers size i x rg.rgStart
        (setSymrg mm i ⟨rg.rgStart, rg.rgStart + ofInt (toInt size)⟩) ↔ size.toNat < 2 ^ 31 := by
  obtain ⟨hle, hmax⟩ := hwf
  have hfits : (rg.rgStart + ofInt (toInt size)).toNat ≤ rg.rgEnd.toNat := BitVec.le_def.mp hfits
  simp only [Delivers, setSymrg, Function.update_self]
  constructor
  · rintro ⟨hend, -, -⟩
    refine (ofInt_toInt_eq_iff (by omega)).mp (BitVec.eq_of_toNat_eq ?_)
    rw [BitVec.toNat_add] at hend hfits
    omega
  · intro hsmall
    have hsame := toNat_ofInt_toInt_of_lt hsmall
    rw [BitVec.toNat_add] at hfits
    refine ⟨by rw [BitVec.toNat_add]; omega, trivial, .inl ⟨rg, hrg, ?_⟩⟩
    exact ⟨Nat.le_refl _, show rg.rgStart.toNat < rg.rgEnd.toNat by omega⟩

/-- On the second way. -/
theorem delivers_grow_iff (hsbrk : x.sbrk.toNat < 2 ^ 57) (mm : Mm) :
    Delivers size i x (ofInt (toInt x.sbrk))
        (setSymrg mm i ⟨ofInt (toInt x.sbrk), ofInt (toInt x.sbrk) + size⟩) ↔
      (ofInt (toInt x.sbrk)).toNat + size.toNat < 2 ^ 64 ∧
        (x.sbrk.toNat < 2 ^ 31 ∨
          ∃ rg ∈ x.vmFreergList, (ofInt (toInt x.sbrk)).toNat ∈ rg.extent.points) := by
  have hend : (ofInt (toInt x.sbrk) + size).toNat = (ofInt (toInt x.sbrk)).toNat + size.toNat ↔
      (ofInt (toInt x.sbrk)).toNat + size.toNat < 2 ^ 64 := by
    rw [BitVec.toNat_add]
    omega
  simp only [Delivers, setSymrg, Function.update_self, hend, true_and,
    ofInt_toInt_eq_iff (Nat.le_of_lt hsbrk), Or.comm]

/-- **When an allocation delivers what is asked for**: a free region fits the size as an `int`, and
this is the size; or none does, the break as an `int` is the break or is in a free region, and
the end does not wrap around. -/
theorem delivers_iff (h : CurVma mm vmaid k x) (hwf : ∀ rg ∈ x.vmFreergList, rg.WellFormed)
    (hsbrk : x.sbrk.toNat < 2 ^ 57) (hsize : 1 ≤ size.toNat) (hrgid : rgid.toNat < maxSymtblSz) :
    AllocDelivers vmaid rgid size x mm ↔
      ((∃ rg ∈ x.vmFreergList, rg.Fits (ofInt (toInt size))) ∧ size.toNat < 2 ^ 31) ∨
        ((¬ ∃ rg ∈ x.vmFreergList, rg.Fits (ofInt (toInt size))) ∧
          (ofInt (toInt x.sbrk)).toNat + size.toNat < 2 ^ 64 ∧
          (x.sbrk.toNat < 2 ^ 31 ∨
            ∃ rg ∈ x.vmFreergList, (ofInt (toInt x.sbrk)).toNat ∈ rg.extent.points)) := by
  have hi := symrg_eq_some hrgid
  -- the call returns, so what it delivers is what is delivered where it returns
  have hreturns : ∀ {allocAddr : Addr} {mm' : Mm},
      alloc vmaid rgid size mm = some (0, allocAddr, mm') →
        (AllocDelivers vmaid rgid size x mm ↔ Delivers size ⟨rgid.toNat, hrgid⟩ x allocAddr mm') := by
    intro allocAddr mm' halloc
    constructor
    · intro hd
      obtain ⟨i, hi', hd⟩ := hd _ _ halloc
      rw [hi, Option.some.injEq] at hi'
      exact hi' ▸ hd
    · intro hd allocAddr' mm'' halloc'
      rw [halloc] at halloc'
      cases halloc'
      exact ⟨_, hi, hd⟩
  rcases takeFit_spec (ofInt (toInt size)) x.vmFreergList with
    ⟨hnone, hall⟩ | ⟨pre, rg, post, hrgs, hpre, hfits, hsome⟩
  · have hno : ¬ ∃ rg ∈ x.vmFreergList, rg.Fits (ofInt (toInt size)) := by
      rintro ⟨rg, hrg, hfits⟩
      exact hall rg hrg hfits
    rw [hreturns (h.alloc_grow hi (h.getFreeVmrgArea_of_none hnone) h.area), delivers_grow_iff hsbrk]
    simp only [hno, not_false_eq_true, false_and, true_and, false_or]
  · have hrg : rg ∈ x.vmFreergList := by
      rw [hrgs]
      exact List.mem_append_right _ List.mem_cons_self
    have hyes : ∃ rg ∈ x.vmFreergList, rg.Fits (ofInt (toInt size)) := ⟨rg, hrg, hfits⟩
    have hstart : rg.rgStart.toNat ≤ 2 ^ 57 := Nat.le_trans (hwf rg hrg).1 (hwf rg hrg).2
    rw [hreturns (h.alloc_found hi (h.getFreeVmrgArea_of_some hsome hstart)),
      delivers_found_iff hrg (hwf rg hrg) hsize hfits]
    simp only [hyes, not_true_eq_false, false_and, true_and, or_false]

/-- A free region of 100 bytes, and the break after it. -/
def hundredFree : VmArea := ⟨0, 0, 0, 100, [⟨0, 100⟩]⟩

theorem curVma_hundredFree :
    CurVma ⟨some [hundredFree], fun _ => ⟨0, 0⟩, none⟩ 0 0 hundredFree := ⟨rfl, rfl⟩

/-- `50` bytes of a free region of `100`. -/
theorem delivers_fifty :
    AllocDelivers 0 3 50 hundredFree ⟨some [hundredFree], fun _ => ⟨0, 0⟩, none⟩ := by
  have hwf : ∀ rg ∈ hundredFree.vmFreergList, rg.WellFormed := by
    simp [hundredFree, VmRg.WellFormed]
  exact (delivers_iff curVma_hundredFree hwf (by decide) (by decide) (by decide)).mpr
    (.inl ⟨⟨⟨0, 100⟩, by simp [hundredFree], by decide⟩, by decide⟩)

/-- Of `2 ^ 32 + 50` bytes asked for, `50` are delivered. -/
theorem not_delivers_large :
    ¬ AllocDelivers 0 3 0x100000032 hundredFree
      ⟨some [hundredFree], fun _ => ⟨0, 0⟩, none⟩ := by
  intro h
  obtain ⟨i, hi, hend, -⟩ := h 0 _ rfl
  obtain rfl : i = ⟨3, by decide⟩ := (Option.some.inj hi).symm
  exact absurd hend (by decide)

end Ossim.Mem
