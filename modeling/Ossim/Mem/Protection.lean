import Ossim.Mem.SymbolTable
import Mathlib.Algebra.Group.Nat.Defs

/-!
# Accesses and regions

An instruction names a byte by a register and an offset into the region of the register.
`__read` and `__write` add the offset to the start of the region and go to the byte with
what fits in an `int`. They look neither at the end of the region nor at whether the
register has one: the comment `Invalid memory identify` stands where `__read` might. So
they keep to the region just when the program does, and when the address is below
`2 ^ 31` (`protected_iff`); beyond that, `__write` refuses everything while there is no area.
-/

namespace Ossim.Mem

/-- The region is allocated; `__free` leaves both ends `0`. -/
def VmRg.Live (rg : VmRg) : Prop := ¬ (rg.rgStart = 0 ∧ rg.rgEnd = 0)

/-- The byte at `offset` is one of an allocated region. -/
def VmRg.Inside (rg : VmRg) (offset : Addr) : Prop :=
  rg.Live ∧ rg.rgStart ≤ rg.rgStart + offset ∧ rg.rgStart + offset < rg.rgEnd

instance (rg : VmRg) (offset : Addr) : Decidable (rg.Inside offset) :=
  inferInstanceAs (Decidable (¬ (_ ∧ _) ∧ _ ∧ _))

/-- What a call that comes down to an access does: it reaches `pg_getval` or `pg_setval` only with
the address of a byte of the region, all of it, and it returns `-1` without an access where
the byte is not one of the region. As for `writeAddr`, the outer `none` is no value, and the
inner one the result `-1`. -/
def Protected (rg : VmRg) (offset : Addr) (addr : Option (Option Word)) : Prop :=
  (∀ a, addr = some (some a) →
    a.toInt = (rg.rgStart + offset).toNat ∧ rg.Inside offset) ∧
    (¬ rg.Inside offset → addr = some none)

/-- An access to the start of a region and an offset. -/
theorem protected_access_iff (rg : VmRg) (offset : Addr) :
    Protected rg offset (some (some (toInt (rg.rgStart + offset)))) ↔
      rg.Inside offset ∧ (rg.rgStart + offset).toNat < 2 ^ 31 := by
  constructor
  · rintro ⟨haccess, -⟩
    obtain ⟨hint, hin⟩ := haccess _ rfl
    exact ⟨hin, (toInt_toInt_eq_iff _).mp hint⟩
  · rintro ⟨hin, hsmall⟩
    refine ⟨?_, fun hout => absurd hin hout⟩
    intro a ha
    obtain rfl := Option.some.inj (Option.some.inj ha)
    exact ⟨(toInt_toInt_eq_iff _).mpr hsmall, hin⟩

/-- **When an access keeps to its region.** `__read`: just when the byte is one of the region and
its address is below `2 ^ 31`. `__write`: then too, and where there is no area; and where the
look-up of the area does not come back, just when the byte is one of the region. -/
theorem protected_iff (rgid : Word) (hrgid : rgid.toNat < maxSymtblSz) (offset : Addr) (mm : Mm) :
    (Protected (mm.symrgtbl ⟨rgid.toNat, hrgid⟩) offset ((readAddr rgid offset mm).map some) ↔
      (mm.symrgtbl ⟨rgid.toNat, hrgid⟩).Inside offset ∧
        ((mm.symrgtbl ⟨rgid.toNat, hrgid⟩).rgStart + offset).toNat < 2 ^ 31) ∧
      (Protected (mm.symrgtbl ⟨rgid.toNat, hrgid⟩) offset (writeAddr rgid offset mm) ↔
        getVmaByNum mm 0 = some none ∨
          ((mm.symrgtbl ⟨rgid.toNat, hrgid⟩).Inside offset ∧
            (getVmaByNum mm 0 = none ∨
              ((mm.symrgtbl ⟨rgid.toNat, hrgid⟩).rgStart + offset).toNat < 2 ^ 31))) := by
  have hid : getSymrgById rgid = true := (getSymrgById_eq_true_iff rgid).mpr (by omega)
  rw [readAddr, writeAddr, if_pos hid, symrg_eq_some hrgid, Option.map_some, Option.map_some]
  refine ⟨protected_access_iff _ offset, ?_⟩
  generalize hrg : mm.symrgtbl ⟨rgid.toNat, hrgid⟩ = rg
  rcases getVmaByNum mm 0 with _ | _ | n
  · -- the look-up of the area does not come back
    simp only [Option.bind_none, reduceCtorEq, false_or, true_or, and_true]
    constructor
    · rintro ⟨-, hout⟩
      by_contra hin
      cases hout hin
    · intro hin
      exact ⟨by simp, fun hout => absurd hin hout⟩
  · simp only [Option.bind_some, Option.isSome_none, Bool.and_false, Bool.false_eq_true, if_false,
      true_or, iff_true]
    exact ⟨by simp, fun _ => rfl⟩
  · simp only [Option.bind_some, hid, Option.isSome_some, Bool.and_self, if_true, Option.map_some,
      Option.some.injEq, reduceCtorEq, false_or, hrg]
    exact protected_access_iff rg offset

/-- A region of 300 bytes, and its last byte. -/
theorem protected_last_byte :
    Protected ⟨0, 300⟩ 299 ((readAddr 4 299 ⟨none, fun _ => ⟨0, 300⟩, some []⟩).map some) :=
  (protected_iff 4 (by decide) 299 ⟨none, fun _ => ⟨0, 300⟩, some []⟩).1.mpr (by decide)

/-- A byte of a register that was never allocated, and the byte past the end of a region, are
accessed all the same. -/
theorem not_protected_unallocated :
    ¬ Protected ⟨0, 0⟩ 20
        (writeAddr 2 20 ⟨some [⟨0, 0, 0, 0, []⟩], fun _ => ⟨0, 0⟩, some []⟩) ∧
      ¬ Protected ⟨0, 300⟩ 300 ((readAddr 4 300 ⟨none, fun _ => ⟨0, 300⟩, some []⟩).map some) := by
  constructor
  · rintro ⟨-, hout⟩
    exact absurd (hout (by decide)) (by decide)
  · rintro ⟨-, hout⟩
    exact absurd (hout (by decide)) (by decide)

end Ossim.Mem
