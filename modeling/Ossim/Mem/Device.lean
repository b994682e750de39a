import Ossim.Mem.Instruction
import Mathlib.Tactic.SplitIfs

/-!
# Physical memory

`mm-memphy.c`: a device of bytes, read and written at any address or one after another by
moving a cursor from its start, and the list of its free frames.

## The model

`struct memphy_struct` by its fields. An `int` field is the integer it holds; a size or
an address is a 64-bit word, and `init_memphy` keeps the size as an `int`. The bytes are
those `malloc` returned, `max_size` of them whatever the `int` says. A function that
accesses a byte past them, or follows a pointer no one has stored, has no value.

What is *not* modelled: the tests of `mp` against `NULL`, a device being a variable of
`main`; `used_fp_list` and `owner`, which nothing reads; `malloc` failing.
-/

namespace Ossim.Mem

/-- `BYTE`. -/
abbrev Byte : Type := BitVec 8

/-- `PAGING_PAGESZ`. -/
def pagingPagesz : ℤ := 256

/-- `struct framephy_struct *`: the frame numbers of the nodes, and whether the last node has
`NULL` after it or what `malloc` left there. -/
structure FpList where
  /-- `fpn` of the nodes. -/
  fpns : List Addr
  /-- The list ends in `NULL`. -/
  ended : Bool
  deriving DecidableEq

/-- `struct memphy_struct`. -/
structure Memphy where
  /-- `storage`. -/
  storage : List Byte
  /-- `maxsz`. -/
  maxsz : ℤ
  /-- `rdmflg`. -/
  rdmflg : ℤ
  /-- `cursor`. -/
  cursor : ℤ
  /-- `free_fp_list`. -/
  freeFpList : FpList
  deriving DecidableEq

/-! ### Bytes -/

/-- The loop of `MEMPHY_mv_csr`, with `maxsz - numstep` iterations to go. -/
def mvCsrFrom (maxsz : ℤ) (offset : ℕ) : ℕ → ℕ → ℤ → ℤ
  | 0, _, cursor => cursor
  | k + 1, numstep, cursor =>
    if numstep < offset then mvCsrFrom maxsz offset k (numstep + 1) ((cursor + 1).tmod maxsz)
    else cursor

/-- `MEMPHY_mv_csr`. -/
def memphyMvCsr (mp : Memphy) (offset : Addr) : Memphy :=
  { mp with cursor := mvCsrFrom mp.maxsz offset.toNat mp.maxsz.toNat 0 0 }

/-- `MEMPHY_seq_read`: the result, what is stored in `*value`, and the device after. -/
def memphySeqRead (mp : Memphy) (addr : Addr) : Option (ℤ × Option Byte × Memphy) :=
  if mp.rdmflg = 0 then some (-1, none, mp)
  else (memphyMvCsr mp addr).storage[addr.toNat]?.map fun v => (0, some v, memphyMvCsr mp addr)

/-- `MEMPHY_read`. -/
def memphyRead (mp : Memphy) (addr : Addr) : Option (ℤ × Option Byte × Memphy) :=
  if mp.rdmflg ≠ 0 then mp.storage[addr.toNat]?.map fun v => (0, some v, mp)
  else memphySeqRead mp addr

/-- A store to `storage[addr]`. -/
def setByte (mp : Memphy) (addr : Addr) (value : Byte) : Option Memphy :=
  if addr.toNat < mp.storage.length then
    some { mp with storage := mp.storage.set addr.toNat value }
  else none

/-- `MEMPHY_seq_write`. -/
def memphySeqWrite (mp : Memphy) (addr : Addr) (value : Byte) : Option (ℤ × Memphy) :=
  if mp.rdmflg = 0 then some (-1, mp)
  else (setByte (memphyMvCsr mp addr) addr value).map fun mp' => (0, mp')

/-- `MEMPHY_write`. -/
def memphyWrite (mp : Memphy) (addr : Addr) (data : Byte) : Option (ℤ × Memphy) :=
  if mp.rdmflg ≠ 0 then (setByte mp addr data).map fun mp' => (0, mp')
  else memphySeqWrite mp addr data

/-! ### Frames -/

/-- `MEMPHY_format`. The first node's `fp_next` is stored when there is a second node. -/
def memphyFormat (mp : Memphy) (pagesz : ℤ) : ℤ × Memphy :=
  let numfp := mp.maxsz.tdiv pagesz
  if numfp ≤ 0 then (-1, mp)
  else
    (0, { mp with
      freeFpList := ⟨(List.range numfp.toNat).map (BitVec.ofNat 64), decide (1 < numfp)⟩ })

/-- `MEMPHY_get_freefp`, with what `*retfpn` holds before: the result, what it holds after, and
the device after. -/
def memphyTakeFp (mp : Memphy) (retfpn : Addr) : Option (ℤ × Addr × Memphy) :=
  match mp.freeFpList.fpns with
  | [] => if mp.freeFpList.ended then some (-1, retfpn, mp) else none
  | fpn :: fpns => some (0, fpn, { mp with freeFpList := ⟨fpns, mp.freeFpList.ended⟩ })

/-- `MEMPHY_put_freefp`. -/
def memphyPutFreefp (mp : Memphy) (fpn : Addr) : Memphy :=
  { mp with freeFpList := ⟨fpn :: mp.freeFpList.fpns, mp.freeFpList.ended⟩ }

/-- `init_memphy`, of a device with anything in it. -/
def initMemphy (mp : Memphy) (maxSize : Addr) (randomflg : Word) : Memphy :=
  let mp₁ := { mp with
    storage := List.replicate maxSize.toNat 0
    maxsz := (toInt maxSize).toInt }
  let mp₂ := (memphyFormat mp₁ pagingPagesz).2
  let mp₃ := { mp₂ with rdmflg := if randomflg ≠ 0 then 1 else 0 }
  if mp₃.rdmflg = 0 then { mp₃ with cursor := 0 } else mp₃

/-! ### What the functions do -/

/-- An `int` made an `addr_t` and back is as it was. -/
@[simp] theorem toInt_ofInt (n : Word) : toInt (ofInt n) = n := by
  apply BitVec.eq_of_getLsbD_eq
  intro i hi
  have hi' : i < 64 := by omega
  rw [toInt, ofInt, BitVec.getLsbD_setWidth, BitVec.getLsbD_signExtend, decide_eq_true hi,
    decide_eq_true hi', if_pos hi, Bool.true_and, Bool.true_and]

/-- On a list that ends in `NULL`, what a page fault does to the free frames is this
`MEMPHY_get_freefp`. -/
theorem memphyTakeFp_of_ended {mp : Memphy} (h : mp.freeFpList.ended = true) (retfpn : Addr) :
    memphyTakeFp mp retfpn = some (match memphyGetFreefp mp.freeFpList.fpns with
      | none => (-1, retfpn, mp)
      | some (fpn, fpns) => (0, fpn, { mp with freeFpList := ⟨fpns, true⟩ })) := by
  rw [memphyTakeFp]
  cases mp.freeFpList.fpns with
  | nil => exact if_pos h
  | cons fpn fpns => rw [h]; rfl

/-- A size below `0` makes no frame. -/
theorem tdiv_pagingPagesz_nonpos {maxsz : ℤ} (h : maxsz < 0) : maxsz.tdiv pagingPagesz ≤ 0 := by
  have hneg : 0 ≤ (-maxsz).tdiv pagingPagesz := Int.tdiv_nonneg (by omega) (by decide)
  rw [Int.neg_tdiv] at hneg
  omega

/-- A formatted device has the frames from `0` up, one after another. -/
theorem memphyFormat_fpns {mp : Memphy} {pagesz : ℤ} (h : 0 < mp.maxsz.tdiv pagesz) :
    (memphyFormat mp pagesz).2.freeFpList.fpns =
      (List.range (mp.maxsz.tdiv pagesz).toNat).map (BitVec.ofNat 64) := by
  have hpos : ¬ mp.maxsz.tdiv pagesz ≤ 0 := by omega
  simp only [memphyFormat, if_neg hpos]

@[simp] theorem memphyFormat_storage (mp : Memphy) (pagesz : ℤ) :
    (memphyFormat mp pagesz).2.storage = mp.storage := by
  rw [memphyFormat]; split_ifs <;> rfl

@[simp] theorem memphyFormat_maxsz (mp : Memphy) (pagesz : ℤ) :
    (memphyFormat mp pagesz).2.maxsz = mp.maxsz := by
  rw [memphyFormat]; split_ifs <;> rfl

@[simp] theorem initMemphy_storage (mp : Memphy) (maxSize : Addr) (randomflg : Word) :
    (initMemphy mp maxSize randomflg).storage = List.replicate maxSize.toNat 0 := by
  simp only [initMemphy]
  split_ifs <;> simp

@[simp] theorem initMemphy_maxsz (mp : Memphy) (maxSize : Addr) (randomflg : Word) :
    (initMemphy mp maxSize randomflg).maxsz = (toInt maxSize).toInt := by
  simp only [initMemphy]
  split_ifs <;> simp

theorem initMemphy_rdmflg (mp : Memphy) (maxSize : Addr) (randomflg : Word) :
    (initMemphy mp maxSize randomflg).rdmflg = if randomflg ≠ 0 then 1 else 0 := by
  simp only [initMemphy]
  split_ifs <;> rfl

/-- The cursor steps from `numstep` to the offset, or to the last place short of `maxsz`. -/
theorem mvCsrFrom_eq {maxsz : ℤ} {offset k numstep : ℕ} (h : (numstep + k : ℤ) = maxsz)
    (hoff : offset < numstep + k) (hle : numstep ≤ offset) :
    mvCsrFrom maxsz offset k numstep numstep = offset := by
  induction k generalizing numstep with
  | zero => omega
  | succ k ih =>
    rw [mvCsrFrom]
    split_ifs with hlt
    · have hstep : ((numstep : ℤ) + 1).tmod maxsz = ((numstep + 1 : ℕ) : ℤ) := by
        rw [Int.tmod_eq_of_lt (by omega) (by omega)]
        rfl
      rw [hstep]
      exact ih (by push_cast; omega) (by omega) (by omega)
    · rw [show numstep = offset by omega]

/-- **Where the cursor stops**: an address of the device is where it is moved to. -/
theorem memphyMvCsr_cursor {mp : Memphy} {addr : Addr} (h : (addr.toNat : ℤ) < mp.maxsz) :
    (memphyMvCsr mp addr).cursor = addr.toNat :=
  @mvCsrFrom_eq mp.maxsz addr.toNat mp.maxsz.toNat 0 (by simp; omega) (by omega) (Nat.zero_le _)

end Ossim.Mem
