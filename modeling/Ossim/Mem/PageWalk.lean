import Ossim.Machine.Bits
import Ossim.Mem.Instruction

/-!
# Page numbers and page directories

`libmem.c` and `mm64.c` divide an address in two ways. `pg_getval` and `pg_setval` get the
address as an `int` and take bits 8 to 21 of it for the page number: pages of 256 bytes in 4
MB. `get_pd_from_address` takes the five indices from bits 12 to 56: pages of 4096 bytes, as
`PAGING64_PAGESZ` says, which lose nothing of the address there (`addressSplit`); and
`get_pd_from_pagenum` shifts a page number by 12 bits to get there. So the page number of an
access leads to the indices of the address for 16 of the pieces of 256 bytes that an address
may be in, and two addresses get the same entry when the bits 8 to 21 are the same
(`pageWalk_iff`).
-/

namespace Ossim.Mem

open Machine

/-! ### The five directories -/

/-- The indices into the directories. -/
@[ext] structure Pd where
  /-- `pgd`. -/
  pgd : Addr
  /-- `p4d`. -/
  p4d : Addr
  /-- `pud`. -/
  pud : Addr
  /-- `pmd`. -/
  pmd : Addr
  /-- `pt`. -/
  pt : Addr
  deriving DecidableEq

/-- `PAGING64_MAX_PGN`, the length of the directories of the kernel. -/
def paging64MaxPgn : ℕ := (2 ^ 21 + 4096 - 1) / 4096

/-- `get_pd_from_address`. -/
def getPdFromAddress (addr : Addr) : Pd where
  pgd := Bits.getval addr (Bits.genmask 64 56 48) 48
  p4d := Bits.getval addr (Bits.genmask 64 47 39) 39
  pud := Bits.getval addr (Bits.genmask 64 38 30) 30
  pmd := Bits.getval addr (Bits.genmask 64 29 21) 21
  pt := Bits.getval addr (Bits.genmask 64 20 12) 12

/-- `get_pd_from_pagenum`. -/
def getPdFromPagenum (pgn : Addr) : Pd := getPdFromAddress (pgn <<< 12)

/-- The indices that `pte_get_entry` works out for an access at an address. -/
def accessPd (a : Addr) : Pd := getPdFromPagenum (ofInt (pagingPgn (toInt a)))

/-! ### Page numbers -/

theorem pagingPgn_eq (addr : Word) :
    pagingPgn addr = Bits.getval addr (Bits.genmask 32 21 8) 8 := by
  have hmask : Bits.genmask 32 21 8 = (0x003FFF00 : Word) := rfl
  rw [pagingPgn, Bits.getval, hmask]

theorem toNat_pagingPgn (a : Addr) :
    (pagingPgn (toInt a)).toNat = a.toNat / 256 % 16384 := by
  have htrunc : (toInt a).toNat = a.toNat % 4294967296 := BitVec.toNat_setWidth ..
  rw [pagingPgn_eq, Bits.toNat_getval (by omega) (by omega), htrunc]
  show a.toNat % 4294967296 / 256 % 16384 = a.toNat / 256 % 16384
  omega

/-- A page number is not negative as an `int`. -/
theorem toNat_ofInt_pagingPgn (a : Addr) :
    (ofInt (pagingPgn (toInt a))).toNat = a.toNat / 256 % 16384 := by
  have hsmall : (pagingPgn (toInt a)).toNat < 2 ^ 31 := by
    rw [toNat_pagingPgn]
    omega
  rw [toNat_ofInt_of_lt hsmall, toNat_pagingPgn]

/-! ### Indices -/

/-- An index is the digit of the address that its bits make. -/
theorem toNat_getPd (a : Addr) :
    (getPdFromAddress a).pgd.toNat = a.toNat / 2 ^ 48 % 512 ∧
      (getPdFromAddress a).p4d.toNat = a.toNat / 2 ^ 39 % 512 ∧
      (getPdFromAddress a).pud.toNat = a.toNat / 2 ^ 30 % 512 ∧
      (getPdFromAddress a).pmd.toNat = a.toNat / 2 ^ 21 % 512 ∧
      (getPdFromAddress a).pt.toNat = a.toNat / 2 ^ 12 % 512 :=
  ⟨Bits.toNat_getval (by omega) (by omega), Bits.toNat_getval (by omega) (by omega),
    Bits.toNat_getval (by omega) (by omega), Bits.toNat_getval (by omega) (by omega),
    Bits.toNat_getval (by omega) (by omega)⟩

/-- The indices are the digits of the page of 4096 bytes that the address is in. -/
theorem page_digits (a : Addr) :
    (getPdFromAddress a).pgd.toNat < 512 ∧ (getPdFromAddress a).p4d.toNat < 512 ∧
      (getPdFromAddress a).pud.toNat < 512 ∧ (getPdFromAddress a).pmd.toNat < 512 ∧
      (getPdFromAddress a).pt.toNat < 512 ∧
      a.toNat / 4096 % 2 ^ 45 =
        (getPdFromAddress a).pgd.toNat * 2 ^ 36 + (getPdFromAddress a).p4d.toNat * 2 ^ 27 +
          (getPdFromAddress a).pud.toNat * 2 ^ 18 + (getPdFromAddress a).pmd.toNat * 2 ^ 9 +
          (getPdFromAddress a).pt.toNat := by
  obtain ⟨h₁, h₂, h₃, h₄, h₅⟩ := toNat_getPd a
  rw [h₁, h₂, h₃, h₄, h₅]
  omega

/-- **The five indices** say which page of 4096 bytes an address is in, below bit 57. -/
theorem getPdFromAddress_eq_iff_mod {a b : Addr} :
    getPdFromAddress a = getPdFromAddress b ↔
      a.toNat / 4096 % 2 ^ 45 = b.toNat / 4096 % 2 ^ 45 := by
  obtain ⟨ha₁, ha₂, ha₃, ha₄, ha₅, ha⟩ := page_digits a
  obtain ⟨hb₁, hb₂, hb₃, hb₄, hb₅, hb⟩ := page_digits b
  constructor
  · intro h
    rw [ha, hb, h]
  · intro h
    rw [ha, hb] at h
    ext1 <;> exact BitVec.eq_of_toNat_eq (by omega)

theorem getPdFromAddress_eq_iff {a b : Addr} (ha : a.toNat < 2 ^ 57) (hb : b.toNat < 2 ^ 57) :
    getPdFromAddress a = getPdFromAddress b ↔ a.toNat / 4096 = b.toNat / 4096 := by
  rw [getPdFromAddress_eq_iff_mod]
  omega

/-- A page number leads back to the page it is the number of. -/
theorem toNat_pagenum {pgn : Addr} (h : pgn.toNat < 2 ^ 52) :
    (pgn <<< 12).toNat = pgn.toNat * 4096 := by
  rw [BitVec.toNat_shiftLeft, Nat.shiftLeft_eq]
  omega

/-- **The five indices tile the address** from bit 12 to bit 56: each is a place of its
directory, with the offset in the page they make up the address, and page numbers that fit
tell pages apart and lead where every address of the page leads. -/
theorem addressSplit :
    (∀ a, (getPdFromAddress a).pgd.toNat < paging64MaxPgn ∧
      (getPdFromAddress a).p4d.toNat < paging64MaxPgn ∧
      (getPdFromAddress a).pud.toNat < paging64MaxPgn ∧
      (getPdFromAddress a).pmd.toNat < paging64MaxPgn ∧
      (getPdFromAddress a).pt.toNat < paging64MaxPgn ∧
      (getPdFromAddress a).pgd.toNat * 2 ^ 48 + (getPdFromAddress a).p4d.toNat * 2 ^ 39 +
        (getPdFromAddress a).pud.toNat * 2 ^ 30 + (getPdFromAddress a).pmd.toNat * 2 ^ 21 +
        (getPdFromAddress a).pt.toNat * 2 ^ 12 + a.toNat % 4096 = a.toNat % 2 ^ 57) ∧
      (∀ p q : Addr, p.toNat < 2 ^ 45 → q.toNat < 2 ^ 45 →
        getPdFromPagenum p = getPdFromPagenum q → p = q) ∧
      ∀ pgn a : Addr, a.toNat / 4096 = pgn.toNat → getPdFromPagenum pgn = getPdFromAddress a := by
  refine ⟨?_, ?_, ?_⟩
  · intro a
    obtain ⟨h₁, h₂, h₃, h₄, h₅, hpage⟩ := page_digits a
    have hmax : paging64MaxPgn = 512 := rfl
    rw [hmax]
    omega
  · intro p q hp hq h
    have hpage := getPdFromAddress_eq_iff_mod.mp h
    rw [toNat_pagenum (by omega), toNat_pagenum (by omega)] at hpage
    exact BitVec.eq_of_toNat_eq (by omega)
  · intro pgn a ha
    have hmax := a.isLt
    rw [getPdFromPagenum, getPdFromAddress_eq_iff_mod, toNat_pagenum (by omega), ha]
    omega

/-- A number that without its last four bits is its last fourteen repeats four bits throughout. -/
theorem repeats_iff (n : ℕ) : n % 16384 = n / 16 ↔ ∃ d < 16, n = d * 0x1111 + d % 4 * 0x10000 := by
  constructor
  · intro h
    -- with `q` for the bits from 14 up and `d` for the last four, `15 * (n / 16) + d = 16384 * q`
    have hdigits : ∀ q < 16, ∀ d < 16, d ≤ 16384 * q → (16384 * q - d) % 15 = 0 →
        (16384 * q - d) / 15 < 16384 →
        16384 * q + (16384 * q - d) / 15 = d * 0x1111 + d % 4 * 0x10000 := by
      decide
    have hdigits := hdigits (n / 16384) (by omega) (n % 16) (by omega) (by omega) (by omega)
      (by omega)
    refine ⟨n % 16, by omega, ?_⟩
    omega
  · rintro ⟨d, hd, rfl⟩
    have hrepeat : ∀ d < 16, (d * 0x1111 + d % 4 * 0x10000) % 16384 =
        (d * 0x1111 + d % 4 * 0x10000) / 16 := by
      decide
    exact hrepeat d hd

/-- The address whose indices `pte_get_entry` works out for an access at `a`. -/
theorem toNat_accessPage (a : Addr) :
    (ofInt (pagingPgn (toInt a)) <<< 12).toNat = a.toNat / 256 % 16384 * 4096 := by
  rw [toNat_pagenum, toNat_ofInt_pagingPgn]
  rw [toNat_ofInt_pagingPgn]
  omega

theorem toNat_accessPage_lt (a : Addr) : (ofInt (pagingPgn (toInt a)) <<< 12).toNat < 2 ^ 57 := by
  rw [toNat_accessPage]
  omega

/-- The entry of an access is that of the bits 8 to 21. -/
theorem accessPd_eq_iff (a b : Addr) :
    accessPd a = accessPd b ↔ a.toNat / 256 % 16384 = b.toNat / 256 % 16384 := by
  rw [accessPd, accessPd, getPdFromPagenum, getPdFromPagenum,
    getPdFromAddress_eq_iff (toNat_accessPage_lt a) (toNat_accessPage_lt b), toNat_accessPage,
    toNat_accessPage]
  omega

/-- … and it is the entry of the address when these bits are those from 12 up, which makes every
four bits of it from 8 up the same. -/
theorem accessPd_eq_getPd_iff {a : Addr} (ha : a.toNat < 2 ^ 57) :
    accessPd a = getPdFromAddress a ↔
      ∃ d < 16, a.toNat / 256 = d * 0x1111 + d % 4 * 0x10000 := by
  rw [accessPd, getPdFromPagenum, getPdFromAddress_eq_iff (toNat_accessPage_lt a) ha,
    toNat_accessPage, Nat.mul_div_cancel _ (by omega), ← repeats_iff]
  omega

/-- **When the two divisions agree.** The page number of an access leads to the indices of the
address for the first 256 bytes and 15 other pieces of that size; and two addresses get one
entry just when they are in one page of 4096 bytes, if they are in one piece of 256 bytes, or
in different pages and their pieces do not lie a multiple of 4 MB apart. -/
theorem pageWalk_iff (a b : Addr) (ha : a.toNat < 2 ^ 57) (hb : b.toNat < 2 ^ 57) :
    (accessPd a = getPdFromAddress a ↔
      ∃ d < 16, a.toNat / 256 = d * 0x1111 + d % 4 * 0x10000) ∧
      (accessPd b = getPdFromAddress b ↔
        ∃ d < 16, b.toNat / 256 = d * 0x1111 + d % 4 * 0x10000) ∧
        ((accessPd a = accessPd b ↔ a.toNat / 4096 = b.toNat / 4096) ↔
          a.toNat / 256 = b.toNat / 256 ∨
            (a.toNat / 4096 ≠ b.toNat / 4096 ∧
              a.toNat / 256 % 16384 ≠ b.toNat / 256 % 16384)) := by
  refine ⟨accessPd_eq_getPd_iff ha, accessPd_eq_getPd_iff hb, ?_⟩
  rw [accessPd_eq_iff]
  omega

/-- The first byte and the last one that agree. -/
theorem pageWalk_zero :
    accessPd 0 = getPdFromAddress 0 ∧ accessPd 0x3FFFFFF = getPdFromAddress 0x3FFFFFF := by
  have hiff := pageWalk_iff 0 0x3FFFFFF (by decide) (by decide)
  exact ⟨hiff.1.mpr ⟨0, by decide⟩, hiff.2.1.mpr ⟨15, by decide⟩⟩

/-- Address `256` is in the first page of 4096 bytes, and is looked up in the second entry. -/
theorem second_piece_disagrees :
    accessPd 256 ≠ getPdFromAddress 256 ∧ accessPd 256 ≠ accessPd 0 := by
  decide

end Ossim.Mem
