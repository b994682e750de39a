import Ossim.Mem.Region

/-!
# Instructions and memory

What `run` (`cpu.c`) does for each instruction, down to the page lists of `libmem.c`:
`ALLOC` and `FREE` work on the regions of the process, `READ` and `WRITE` ask for the
page an address is in, which puts a page off the list of pages in use and takes a frame
of the swap device.

## The model

An instruction works on the `mm_struct` its process reaches and on the free frames of
the active swap device (`Store`). As for regions, where the code follows a pointer it
may not follow there is no result.

The tables that map pages to frames are not there yet: `pte_get_entry` finds no entry
for any page, so every access asks for a page that is not present; and no byte is read
or written.
-/

namespace Ossim.Mem

/-- What an instruction works on. -/
structure Store where
  /-- `*caller->krnl->mm`. -/
  mm : Mm
  /-- `caller->krnl->active_mswp->free_fp_list`, as frame numbers. -/
  freeFpList : List Addr

/-! ### Pages -/

/-- `PAGING_PGN`: bits 8 to 21 of an address. -/
def pagingPgn (addr : Word) : Word := (addr &&& 0x003FFF00) >>> 8

/-- `PAGING_PAGE_PRESENT`. -/
def pagingPagePresent (pte : Word) : Bool := pte &&& 0x80000000 ≠ 0

/-- `PAGING_FPN`: bits 0 to 12 of a page table entry. -/
def pagingFpn (pte : Word) : Word := pte &&& 0x1FFF

/-- `pte_get_entry`, whose look-up is commented out. -/
def pteGetEntry (_pgn : Addr) : Word := 0

/-- `find_victim_page`: the last page number on the list, taken off it; the inner `none` is the
result `-1`. With one page on the list, the code goes through the predecessor it does not have. -/
def findVictimPage (mm : Mm) : Option (Option Addr × Mm) :=
  match mm.fifoPgn with
  | none => none
  | some [] => some (none, mm)
  | some [_] => none
  | some (pgn :: pgn' :: pgns) =>
    some (some ((pgn' :: pgns).getLast (List.cons_ne_nil _ _)),
      { mm with fifoPgn := some (pgn :: pgn' :: pgns).dropLast })

/-- `MEMPHY_get_freefp`; `none` is the result `-1`. -/
def memphyGetFreefp : List Addr → Option (Addr × List Addr)
  | [] => none
  | fpn :: fpns => some (fpn, fpns)

/-- `enlist_pgn_node`. -/
def enlistPgnNode (mm : Mm) (pgn : Addr) : Mm :=
  { mm with fifoPgn := mm.fifoPgn.map fun pgns => pgn :: pgns }

/-- `pg_getpage`: the frame number, where the inner `none` is the result `-1`. -/
def pgGetpage (pgn : Word) (s : Store) : Option (Option Word × Store) := do
  let pte := pteGetEntry (ofInt pgn)
  if pagingPagePresent pte then some (some (pagingFpn (pteGetEntry (ofInt pgn))), s)
  else
    let (vicpgn, mm) ← findVictimPage s.mm
    match vicpgn, memphyGetFreefp s.freeFpList with
    | none, _ => some (none, { s with mm := mm })
    -- the victim is off the list by now
    | some _, none => some (none, { s with mm := mm })
    | some _, some (_, fpns) =>
      some (some (pagingFpn (pteGetEntry (ofInt pgn))), ⟨enlistPgnNode mm (ofInt pgn), fpns⟩)

/-- What `pg_getval` and `pg_setval` do before they come to the byte itself. -/
def pgAccess (addr : Word) (s : Store) : Option (ℤ × Store) := do
  let (fpn, s) ← pgGetpage (pagingPgn addr) s
  some (if fpn.isSome then 0 else -1, s)

/-- `pg_getval`. -/
def pgGetval (addr : Word) (s : Store) : Option (ℤ × Store) := pgAccess addr s

/-- `pg_setval`. -/
def pgSetval (addr : Word) (_value : BitVec 8) (s : Store) : Option (ℤ × Store) := pgAccess addr s

/-! ### The library -/

/-- `liballoc`. -/
def liballoc (size : Addr) (regIndex : Word) (s : Store) : Option (ℤ × Store) := do
  let (val, _, mm) ← alloc 0 regIndex size s.mm
  some (if val = -1 then -1 else val, { s with mm := mm })

/-- `libfree`. -/
def libfree (regIndex : Word) (s : Store) : Option (ℤ × Store) := do
  let (val, mm) ← free regIndex s.mm
  some (if val = -1 then -1 else 0, { s with mm := mm })

/-- `__read`, which follows what `get_symrg_byid` returns whether it is `NULL` or not. -/
def read (rgid : Word) (offset : Addr) (s : Store) : Option (ℤ × Store) := do
  if !getSymrgById rgid then none
  else
    let i ← symrg rgid
    let (_, s) ← pgGetval (toInt ((s.mm.symrgtbl i).rgStart + offset)) s
    some (0, s)

/-- `libread`. -/
def libread (source : Word) (offset : Addr) (s : Store) : Option (ℤ × Store) := read source offset s

/-- `__write`. -/
def write (rgid : Word) (offset : Addr) (value : BitVec 8) (s : Store) : Option (ℤ × Store) := do
  let curVma ← getVmaByNum s.mm 0
  if !getSymrgById rgid || curVma.isNone then some (-1, s)
  else
    let i ← symrg rgid
    let (_, s) ← pgSetval (toInt ((s.mm.symrgtbl i).rgStart + offset)) value s
    some (0, s)

/-- `libwrite`. -/
def libwrite (data : BitVec 8) (destination : Word) (offset : Addr) (s : Store) :
    Option (ℤ × Store) := do
  let (val, s) ← write destination offset data s
  some (if val = -1 then -1 else val, s)

/-- `libsyscall`. -/
def libsyscall (syscallIdx : Word) (a1 a2 a3 : Addr) (s : Store) : Option (ℤ × Store) := do
  let (val, _) ← syscall syscallIdx ⟨a1, a2, a3⟩
  some (val, s)

/-! ### Instructions -/

/-- `enum ins_opcode_t`. -/
inductive InsOpcode where
  /-- `CALC`. -/
  | calc
  /-- `ALLOC`. -/
  | alloc
  /-- `FREE`. -/
  | free
  /-- `READ`. -/
  | read
  /-- `WRITE`. -/
  | write
  /-- `KMALLOC`. -/
  | kmalloc
  /-- `KMEM_CACHE_CREATE`. -/
  | kmemCacheCreate
  /-- `KMEM_CACHE_ALLOC`. -/
  | kmemCacheAlloc
  /-- `COPY_FROM_USER`. -/
  | copyFromUser
  /-- `COPY_TO_USER`. -/
  | copyToUser
  /-- `SYSCALL`. -/
  | syscall

/-- `struct inst_t`. -/
structure Inst where
  /-- `opcode`. -/
  opcode : InsOpcode
  /-- `arg_0`. -/
  arg0 : Addr
  /-- `arg_1`. -/
  arg1 : Addr
  /-- `arg_2`. -/
  arg2 : Addr
  /-- `arg_3`. -/
  arg3 : Addr

/-- The `switch` of `run`. The kernel-memory functions of `libmem.c` have no statement but the
last, and `calc` computes `0`. -/
def execute (ins : Inst) (s : Store) : Option (ℤ × Store) :=
  match ins.opcode with
  | .calc => some (0, s)
  | .alloc => liballoc ins.arg0 (toInt ins.arg1) s
  | .kmalloc => some (0, s)
  | .kmemCacheCreate => some (0, s)
  | .kmemCacheAlloc => some (0, s)
  | .copyFromUser => some (0, s)
  | .copyToUser => some (1, s)
  | .free => libfree (toInt ins.arg0) s
  | .read => libread (toInt ins.arg0) ins.arg1 s
  | .write => libwrite (ins.arg0.setWidth 8) (toInt ins.arg1) ins.arg2 s
  | .syscall => libsyscall (toInt ins.arg0) ins.arg1 ins.arg2 ins.arg3 s

end Ossim.Mem
