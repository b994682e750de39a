import Mathlib.Algebra.Group.Nat.Defs
import Mathlib.Tactic.SplitIfs

/-!
# Fields of a word

Several values kept in one machine word, each in a field of it: a field is given by a mask
and the place of its lowest bit, and is stored and read back by masking and shifting. A
field that has been stored is read back as much of the value as the field has bits for
(`toNat_getval_setval`), and storing a field does not disturb a bit outside it
(`getLsbD_setval_of_not`).
-/

namespace Ossim.Machine.Bits

variable {w : ℕ}

/-- The bits `l` to `h`. -/
def genmask (w h l : ℕ) : BitVec w := BitVec.allOnes w <<< l &&& BitVec.allOnes w >>> (w - h - 1)

/-- The bits of the mask set. -/
def setbit (v mask : BitVec w) : BitVec w := v ||| mask

/-- The bits of the mask cleared. -/
def clrbit (v mask : BitVec w) : BitVec w := v &&& ~~~mask

/-- The value stored in the field. -/
def setval (v value mask : BitVec w) (offst : ℕ) : BitVec w :=
  v &&& ~~~mask ||| value <<< offst &&& mask

/-- The value read from the field. -/
def getval (v mask : BitVec w) (offst : ℕ) : BitVec w := (v &&& mask) >>> offst

variable {v mask x : BitVec w} {h l i offst : ℕ}

theorem getLsbD_genmask (hh : h < w) :
    (genmask w h l).getLsbD i = (decide (l ≤ i) && decide (i ≤ h)) := by
  rw [genmask, BitVec.getLsbD_and, BitVec.getLsbD_shiftLeft, BitVec.getLsbD_ushiftRight,
    BitVec.getLsbD_allOnes, BitVec.getLsbD_allOnes, Bool.eq_iff_iff]
  simp
  omega

@[simp] theorem getLsbD_setbit :
    (setbit v mask).getLsbD i = (v.getLsbD i || mask.getLsbD i) := BitVec.getLsbD_or

@[simp] theorem getLsbD_clrbit :
    (clrbit v mask).getLsbD i = (v.getLsbD i && !mask.getLsbD i) := by
  rw [clrbit, BitVec.getLsbD_and, BitVec.getLsbD_not]
  by_cases hi : i < w
  · simp [hi]
  · simp [BitVec.getLsbD_of_ge v i (by omega)]

/-- The bits of the mask come from the value, the others are as they were. -/
theorem getLsbD_setval :
    (setval v x mask offst).getLsbD i =
      if mask.getLsbD i then decide (offst ≤ i) && x.getLsbD (i - offst) else v.getLsbD i := by
  rw [setval, BitVec.getLsbD_or, BitVec.getLsbD_and, BitVec.getLsbD_and, BitVec.getLsbD_not,
    BitVec.getLsbD_shiftLeft]
  by_cases hi : i < w
  · rw [decide_eq_true hi, Bool.true_and, Bool.true_and]
    cases mask.getLsbD i with
    | true =>
      rw [Bool.and_true, Bool.not_true, Bool.and_false, Bool.false_or, if_pos rfl, ← decide_not]
      simp only [Nat.not_lt]
    | false => simp
  · simp [BitVec.getLsbD_of_ge v i (by omega), BitVec.getLsbD_of_ge mask i (by omega)]

/-- A bit outside the field is not disturbed. -/
theorem getLsbD_setval_of_not (hi : mask.getLsbD i = false) :
    (setval v x mask offst).getLsbD i = v.getLsbD i := by
  rw [getLsbD_setval, hi]
  exact if_neg nofun

/-- A field of a word is a digit of it, to the base that its bits make. -/
theorem toNat_getval (hh : h < w) (hl : l ≤ h) :
    (getval v (genmask w h l) l).toNat = v.toNat / 2 ^ l % 2 ^ (h - l + 1) := by
  apply Nat.eq_of_testBit_eq
  intro i
  rw [BitVec.testBit_toNat, Nat.testBit_mod_two_pow, Nat.testBit_div_two_pow,
    BitVec.testBit_toNat, getval, BitVec.getLsbD_ushiftRight, BitVec.getLsbD_and,
    getLsbD_genmask hh, Nat.add_comm i l]
  by_cases hi : i < h - l + 1
  · have hle : l + i ≤ h := by omega
    simp [hi, hle]
  · have hle : ¬ l + i ≤ h := by omega
    simp [hi, hle]

/-- **A field is read back** as far as it has bits for the value. -/
theorem toNat_getval_setval (hh : h < w) (hl : l ≤ h) :
    (getval (setval v x (genmask w h l) l) (genmask w h l) l).toNat =
      x.toNat % 2 ^ (h - l + 1) := by
  apply Nat.eq_of_testBit_eq
  intro i
  rw [BitVec.testBit_toNat, Nat.testBit_mod_two_pow, BitVec.testBit_toNat, getval,
    BitVec.getLsbD_ushiftRight, BitVec.getLsbD_and, getLsbD_setval, getLsbD_genmask hh]
  by_cases hi : i < h - l + 1
  · have hle : l + i ≤ h := by omega
    simp [hi, hle]
  · have hle : ¬ l + i ≤ h := by omega
    simp [hi, hle]

end Ossim.Machine.Bits
