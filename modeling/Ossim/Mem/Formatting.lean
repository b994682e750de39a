import Ossim.Mem.Device

/-!
# Formatting a device

`init_memphy` should leave on the free list the frames that the bytes of the device make up,
one after another and ended by `NULL`. `MEMPHY_format` takes the size as an `int`, returns
before it stores anything when that makes less than a frame, and ends with `NULL` every node
but the first. So the list is as it should be just when the device has two frames or more and
less than `2 ^ 31` bytes, or nothing was stored and the list was already as it should be
(`formatted_initMemphy_iff`). A frame that `MEMPHY_format` does list is always in the device
(`within_initMemphy`).
-/

namespace Ossim.Mem

/-- The frames of a device with `maxSize` bytes, in ascending order and ended by `NULL`. -/
def framesOf (maxSize : Addr) : FpList :=
  ⟨(List.range (maxSize.toNat / 256)).map (BitVec.ofNat 64), true⟩

/-- Every frame on the free list lies in the storage. -/
def Within (mp : Memphy) : Prop :=
  ∀ fpn ∈ mp.freeFpList.fpns, (fpn.toNat + 1) * 256 ≤ mp.storage.length

/-- The free list is that of a device with `maxSize` bytes, and its frames lie in the storage. -/
def Formatted (mp : Memphy) (maxSize : Addr) : Prop :=
  mp.freeFpList = framesOf maxSize ∧ Within mp

/-! ### The list -/

variable {maxSize : Addr} (mp : Memphy) (randomflg : Word)

/-- Of less than a frame, `MEMPHY_format` stores nothing. -/
theorem initMemphy_of_lt (h : (toInt maxSize).toInt < 256) :
    (initMemphy mp maxSize randomflg).freeFpList = mp.freeFpList := by
  have hnumfp : (toInt maxSize).toInt.tdiv pagingPagesz ≤ 0 := by
    by_cases hneg : (toInt maxSize).toInt < 0
    · exact tdiv_pagingPagesz_nonpos hneg
    · exact Int.le_of_eq (Int.tdiv_eq_zero_of_lt (by omega) h)
  simp only [initMemphy, memphyFormat, if_pos hnumfp]
  split_ifs <;> rfl

/-- Otherwise it lists the frames that the `int` makes, and stores `NULL` after the last of them
when there are two or more. -/
theorem initMemphy_of_le (h : 256 ≤ (toInt maxSize).toInt) :
    (initMemphy mp maxSize randomflg).freeFpList =
      ⟨(List.range (maxSize.toNat % 2 ^ 32 / 256)).map (BitVec.ofNat 64),
        decide (512 ≤ maxSize.toNat % 2 ^ 32)⟩ := by
  have hnonneg : 0 ≤ (toInt maxSize).toInt := by omega
  obtain ⟨hint, hlt⟩ := toInt_toInt_of_nonneg hnonneg
  have hnumfp : (toInt maxSize).toInt.tdiv pagingPagesz = (maxSize.toNat % 2 ^ 32 / 256 : ℕ) := by
    rw [hint, Int.tdiv_eq_ediv_of_nonneg (Int.natCast_nonneg _)]
    rfl
  have hpos : ¬ ((maxSize.toNat % 2 ^ 32 / 256 : ℕ) : ℤ) ≤ 0 := by omega
  have hended : decide (1 < ((maxSize.toNat % 2 ^ 32 / 256 : ℕ) : ℤ)) =
      decide (512 ≤ maxSize.toNat % 2 ^ 32) := decide_eq_decide.mpr (by omega)
  simp only [initMemphy, memphyFormat, hnumfp, if_neg hpos, hended, Int.toNat_natCast]
  split_ifs <;> rfl

/-- The frames that `MEMPHY_format` lists lie in the device, even when they are not all of it. -/
theorem within_initMemphy (h : 256 ≤ (toInt maxSize).toInt) :
    Within (initMemphy mp maxSize randomflg) := by
  intro fpn hfpn
  rw [initMemphy_of_le mp randomflg h] at hfpn
  obtain ⟨i, hi, rfl⟩ := List.mem_map.mp hfpn
  have hi : i < maxSize.toNat % 2 ^ 32 / 256 := List.mem_range.mp hi
  rw [initMemphy_storage, List.length_replicate, BitVec.toNat_ofNat]
  omega

theorem length_framesOf (maxSize : Addr) :
    (framesOf maxSize).fpns.length = maxSize.toNat / 256 := by
  rw [framesOf, List.length_map, List.length_range]

/-- The frames of a device lie in it. -/
theorem within_of_eq_framesOf {mp : Memphy} (h : mp.freeFpList = framesOf maxSize)
    (hstorage : mp.storage.length = maxSize.toNat) : Within mp := by
  intro fpn hfpn
  rw [h] at hfpn
  obtain ⟨i, hi, rfl⟩ := List.mem_map.mp hfpn
  have hi : i < maxSize.toNat / 256 := List.mem_range.mp hi
  rw [hstorage, BitVec.toNat_ofNat]
  omega

/-- **When the free list is that of the device**: it has two frames or more and less than
`2 ^ 31` bytes; or `MEMPHY_format` stores nothing, and the list was already that of the device. -/
theorem formatted_initMemphy_iff (maxSize : Addr) :
    Formatted (initMemphy mp maxSize randomflg) maxSize ↔
      (512 ≤ maxSize.toNat ∧ maxSize.toNat < 2 ^ 31) ∨
        ((toInt maxSize).toInt < 256 ∧ mp.freeFpList = framesOf maxSize) := by
  have hstorage : (initMemphy mp maxSize randomflg).storage.length = maxSize.toNat := by
    rw [initMemphy_storage, List.length_replicate]
  have hiff : Formatted (initMemphy mp maxSize randomflg) maxSize ↔
      (initMemphy mp maxSize randomflg).freeFpList = framesOf maxSize :=
    ⟨And.left, fun h => ⟨h, within_of_eq_framesOf h hstorage⟩⟩
  rw [hiff]
  by_cases hint : (toInt maxSize).toInt < 256
  · have hno : ¬ (512 ≤ maxSize.toNat ∧ maxSize.toNat < 2 ^ 31) := by
      rintro ⟨hle, hlt⟩
      rw [(toInt_toInt_eq_iff maxSize).mpr hlt] at hint
      omega
    rw [initMemphy_of_lt mp randomflg hint]
    simp only [hno, hint, false_or, true_and]
  · have hint : 256 ≤ (toInt maxSize).toInt := by omega
    rw [initMemphy_of_le mp randomflg hint]
    constructor
    · intro h
      have hlen := congrArg (fun l => l.fpns.length) h
      simp only [length_framesOf, List.length_map, List.length_range] at hlen
      have hended : 512 ≤ maxSize.toNat % 2 ^ 32 := of_decide_eq_true (congrArg FpList.ended h)
      have hnonneg : 0 ≤ (toInt maxSize).toInt := by omega
      have := toInt_toInt_of_nonneg hnonneg
      omega
    · rintro (⟨hle, hlt⟩ | ⟨hlt, -⟩)
      · have hmod : maxSize.toNat % 2 ^ 32 = maxSize.toNat := Nat.mod_eq_of_lt (by omega)
        rw [hmod, decide_eq_true hle, framesOf]
      · omega

/-- A device of one frame, in a structure no one has stored anything in: the only node has no
`NULL` after it. -/
theorem one_frame_not_ended :
    ¬ Formatted (initMemphy ⟨[], 0, 0, 0, ⟨[], false⟩⟩ 256 1) 256 := by
  rintro ⟨h, -⟩
  exact absurd h (by decide)

end Ossim.Mem
