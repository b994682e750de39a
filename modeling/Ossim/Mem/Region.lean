import Mathlib.Algebra.Group.Nat.Defs
import Mathlib.Data.Int.Notation
import Mathlib.Data.Nat.Notation
import Mathlib.Logic.Function.Basic
import Mathlib.Tactic.SplitIfs

/-!
# Memory regions

`libmem.c` and `mm-vm.c`, as they are compiled with `MM64`: the symbol table of a
process gives each of its variables a region of virtual memory; a region comes from the
free-region list of an area by first fit, or else from the break `sbrk` of the area; a
region given back goes on the list.

## The model

`addr_t` and `unsigned long` are 64-bit words and `int` is a 32-bit word; a conversion
between them is written out where the code makes one. A linked list is the list of what
its nodes hold, and a pointer to an area is the area's place in `mm->mmap`.

A function that follows a null pointer, a pointer no one has stored, or an index outside
an array has no value (`none`): C says nothing of what happens then. What it returns
otherwise is its result and the new `mm_struct`.

`init_mm` stores nothing in `mm->mmap` and `mm->fifo_pgn`, so these may be `none`: such
a pointer can be copied and compared, but not followed.

What is *not* modelled: `mmvm_lock`, which `__alloc` and `__free` hold throughout; `inc_sz`
of `__alloc`, which nothing reads; the page directories and the cache pools of
`mm_struct`; printing.
-/

namespace Ossim.Mem

/-- `addr_t`, `arg_t` and `unsigned long`. -/
abbrev Addr : Type := BitVec 64

/-- `int` and `uint32_t`. -/
abbrev Word : Type := BitVec 32

/-- An `int` where an `addr_t` is wanted. -/
def ofInt (n : Word) : Addr := n.signExtend 64

/-- An `addr_t` where an `int` is wanted. -/
def toInt (a : Addr) : Word := a.setWidth 32

/-- `struct vm_rg_struct`. -/
structure VmRg where
  /-- `rg_start`. -/
  rgStart : Addr
  /-- `rg_end`. -/
  rgEnd : Addr
  deriving DecidableEq

/-- `struct vm_area_struct`. -/
structure VmArea where
  /-- `vm_id`. -/
  vmId : Addr
  /-- `vm_start`. -/
  vmStart : Addr
  /-- `vm_end`. -/
  vmEnd : Addr
  /-- `sbrk`. -/
  sbrk : Addr
  /-- `vm_freerg_list`. -/
  vmFreergList : List VmRg
  deriving DecidableEq

/-- `PAGING_MAX_SYMTBL_SZ`. -/
abbrev maxSymtblSz : ℕ := 30

/-- `struct mm_struct`. -/
structure Mm where
  /-- `mmap`: the areas, or `none` for a pointer no one has stored. -/
  mmap : Option (List VmArea)
  /-- `symrgtbl`. -/
  symrgtbl : Fin maxSymtblSz → VmRg
  /-- `fifo_pgn`: the page numbers, or `none` for a pointer no one has stored. -/
  fifoPgn : Option (List Addr)

/-! ### Areas -/

/-- The loop of `get_vma_by_num`, at place `i` of the areas. -/
def vmaFrom (vmaid : Word) : List VmArea → ℕ → Option ℕ
  | [], _ => none
  | area :: rest, i => if (toInt area.vmId).slt vmaid then vmaFrom vmaid rest (i + 1) else some i

/-- `get_vma_by_num`; the inner `none` is `NULL`. -/
def getVmaByNum (mm : Mm) (vmaid : Word) : Option (Option ℕ) :=
  match mm.mmap with
  | none => none
  | some [] => some none
  | some areas => (vmaFrom vmaid areas 0).map some

/-- The area a pointer points to. -/
def area (mm : Mm) (i : ℕ) : Option VmArea := mm.mmap.bind fun areas => areas[i]?

/-- A store through a pointer to an area. -/
def setArea (mm : Mm) (i : ℕ) (x : VmArea) : Mm :=
  { mm with mmap := mm.mmap.map fun areas => areas.set i x }

/-! ### The symbol table -/

/-- The entry that an access to `symrgtbl[rgid]` touches. -/
def symrg (rgid : Word) : Option (Fin maxSymtblSz) :=
  if h : rgid.toNat < maxSymtblSz then some ⟨rgid.toNat, h⟩ else none

/-- The test of `get_symrg_byid`; `false` is `NULL`. -/
def getSymrgById (rgid : Word) : Bool := !(rgid.slt 0 || (BitVec.ofNat 32 maxSymtblSz).slt rgid)

/-- A store to an entry of the symbol table. -/
def setSymrg (mm : Mm) (i : Fin maxSymtblSz) (rg : VmRg) : Mm :=
  { mm with symrgtbl := Function.update mm.symrgtbl i rg }

/-! ### Free regions -/

/-- The loop of `get_free_vmrg_area`: the region taken, and the list after. -/
def takeFit (size : Addr) : List VmRg → Option (VmRg × List VmRg)
  | [] => none
  | rgit :: rest =>
    if rgit.rgStart + size ≤ rgit.rgEnd then
      some (⟨rgit.rgStart, rgit.rgStart + size⟩,
        if rgit.rgStart + size < rgit.rgEnd then ⟨rgit.rgStart + size, rgit.rgEnd⟩ :: rest
        else match rest with
          -- the node takes over what the next one holds, which is freed
          | nextrg :: rest' => nextrg :: rest'
          | [] => [⟨rgit.rgEnd, rgit.rgEnd⟩])
    else (takeFit size rest).map fun r => (r.1, rgit :: r.2)

/-- `get_free_vmrg_area`; the inner `none` is the result `-1`. -/
def getFreeVmrgArea (vmaid size : Word) (mm : Mm) : Option (Option VmRg × Mm) := do
  let curVma ← ← getVmaByNum mm vmaid
  let x ← area mm curVma
  match takeFit (ofInt size) x.vmFreergList with
  | none => some (none, mm)
  | some (newrg, freergList) =>
    some (if newrg.rgStart = ofInt (-1) then none else some newrg,
      setArea mm curVma { x with vmFreergList := freergList })

/-- `enlist_vm_freerg_list`, on the first area. -/
def enlistVmFreergList (mm : Mm) (rg : VmRg) : Option (ℤ × Mm) := do
  let x ← area mm 0
  if rg.rgEnd ≤ rg.rgStart then some (-1, mm)
  else some (0, setArea mm 0 { x with vmFreergList := rg :: x.vmFreergList })

/-! ### System calls -/

/-- `struct sc_regs`. -/
structure ScRegs where
  /-- `a1`. -/
  a1 : Addr
  /-- `a2`. -/
  a2 : Addr
  /-- `a3`. -/
  a3 : Addr

/-- `vmap_pgd_memset`, whose statements but the last are commented out. -/
def vmapPgdMemset (_addr : Addr) (_pgnum : Word) : Option ℤ := some 0

/-- `inc_vma_limit`, whose statements but the last are commented out. -/
def incVmaLimit (_vmaid : Word) (_incSz : Addr) : Option ℤ := some 0

/-- `__sys_memmap`. The PCB and the kernel it works on are blocks it has just allocated;
swapping and the access to a device follow a pointer in them that no one has stored. -/
def sysMemmap (regs : ScRegs) : Option (ℤ × ScRegs) :=
  match (toInt regs.a1).toNat with
  | 1 => (vmapPgdMemset regs.a2 (toInt regs.a3)).map fun _ => (0, regs)
  | 2 => (incVmaLimit (toInt regs.a2) regs.a3).map fun _ => (0, regs)
  | 3 | 4 | 5 => none
  | _ => some (0, regs)

/-- `_syscall`, by the table `syscall.tbl`: `listsyscall` only prints, and a number that is
not in the table does nothing. -/
def syscall (nr : Word) (regs : ScRegs) : Option (ℤ × ScRegs) :=
  match nr.toNat with
  | 0 => some (0, regs)
  | 17 => sysMemmap regs
  | _ => some (0, regs)

/-! ### `__alloc` and `__free` -/

/-- `__alloc`: the result, `*alloc_addr`, and the `mm_struct` after. -/
def alloc (vmaid rgid : Word) (size : Addr) (mm : Mm) : Option (ℤ × Addr × Mm) := do
  let curVma ← getVmaByNum mm vmaid
  let (found, mm₁) ← getFreeVmrgArea vmaid (toInt size) mm
  match found with
  | some rgnode =>
    let i ← symrg rgid
    some (0, rgnode.rgStart, setSymrg mm₁ i rgnode)
  | none =>
    let x ← area mm₁ (← curVma)
    let oldSbrk := toInt x.sbrk
    let _ ← syscall 17 ⟨2, ofInt vmaid, size⟩
    let i ← symrg rgid
    some (0, ofInt oldSbrk, setSymrg mm₁ i ⟨ofInt oldSbrk, ofInt oldSbrk + size⟩)

/-- `__free`. -/
def free (rgid : Word) (mm : Mm) : Option (ℤ × Mm) := do
  if !getSymrgById rgid then some (-1, mm)
  else
    let i ← symrg rgid
    let rgnode := mm.symrgtbl i
    if rgnode.rgStart = 0 ∧ rgnode.rgEnd = 0 then some (-1, mm)
    else
      let (_, mm₁) ← enlistVmFreergList (setSymrg mm i ⟨0, 0⟩) rgnode
      some (0, mm₁)

/-! ### Conversions -/

/-- An `int` made an `addr_t`: a negative one becomes an address near the top. -/
theorem toNat_ofInt (n : Word) :
    (ofInt n).toNat = if n.toNat < 2 ^ 31 then n.toNat else n.toNat + (2 ^ 64 - 2 ^ 32) := by
  have hword : (n.setWidth 64).toNat = n.toNat :=
    BitVec.toNat_setWidth_of_le (by decide)
  rw [ofInt, BitVec.toNat_signExtend, hword, BitVec.msb_eq_decide]
  simp only [decide_eq_true_eq]
  split_ifs <;> omega

theorem toNat_ofInt_of_lt {n : Word} (h : n.toNat < 2 ^ 31) : (ofInt n).toNat = n.toNat := by
  rw [toNat_ofInt, if_pos h]

/-- An address that went through an `int`. -/
theorem toNat_ofInt_toInt (a : Addr) :
    (ofInt (toInt a)).toNat =
      if a.toNat % 2 ^ 32 < 2 ^ 31 then a.toNat % 2 ^ 32
      else a.toNat % 2 ^ 32 + (2 ^ 64 - 2 ^ 32) := by
  have htrunc : (toInt a).toNat = a.toNat % 2 ^ 32 := BitVec.toNat_setWidth ..
  rw [toNat_ofInt, htrunc]

theorem toNat_ofInt_toInt_of_lt {a : Addr} (h : a.toNat < 2 ^ 31) :
    (ofInt (toInt a)).toNat = a.toNat := by
  rw [toNat_ofInt_toInt]
  split_ifs <;> omega

/-- An address as an `int`. -/
theorem toInt_toInt (a : Addr) :
    (toInt a).toInt = if a.toNat % 2 ^ 32 < 2 ^ 31 then ((a.toNat % 2 ^ 32 : ℕ) : ℤ)
      else ((a.toNat % 2 ^ 32 : ℕ) : ℤ) - (2 ^ 32 : ℕ) := by
  have hint := BitVec.toInt_eq_toNat_cond (toInt a)
  have htrunc : (toInt a).toNat = a.toNat % 2 ^ 32 := BitVec.toNat_setWidth ..
  rw [htrunc] at hint
  split_ifs at hint ⊢ <;> omega

/-- An address passed as an `int` is the same number just when it is below `2 ^ 31`. -/
theorem toInt_toInt_eq_iff (a : Addr) : (toInt a).toInt = a.toNat ↔ a.toNat < 2 ^ 31 := by
  rw [toInt_toInt]
  split_ifs <;> omega

/-- It is never more than the address. -/
theorem toInt_toInt_le (a : Addr) : (toInt a).toInt ≤ a.toNat := by
  rw [toInt_toInt]
  split_ifs <;> omega

/-- One that is not negative is what is left of the address below `2 ^ 32`. -/
theorem toInt_toInt_of_nonneg {a : Addr} (h : 0 ≤ (toInt a).toInt) :
    (toInt a).toInt = (a.toNat % 2 ^ 32 : ℕ) ∧ a.toNat % 2 ^ 32 < 2 ^ 31 := by
  rw [toInt_toInt] at h ⊢
  split_ifs at h ⊢ <;> omega

end Ossim.Mem
