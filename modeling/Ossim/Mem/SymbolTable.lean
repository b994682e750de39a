import Ossim.Mem.Instruction
import Mathlib.Tactic.SplitIfs

/-!
# Indices into the symbol table

`ALLOC`, `FREE`, `READ` and `WRITE` name a register, which is the index of an entry of
`symrgtbl`. A program may name any register. The test of it is made in `get_symrg_byid` and
again in `__free`; both let `PAGING_MAX_SYMTBL_SZ` itself through, one past the last entry.
`__alloc` makes no test, and `__read` follows what `get_symrg_byid` returns whether or not
it is `NULL`. So what goes wrong depends on the instruction (`inBounds_iff`): a register
past the end is refused by `FREE` and `WRITE`, but for the first one; and by `READ` and
`ALLOC` never.

Where the register has an entry, that entry is the only one the call looks at or changes.
This is said of a call as a function of the whole table (`OnlyEntry`): whatever the other
entries are, the call does the same and leaves them as they are.
-/

namespace Ossim.Mem

/-- A call that names a register. -/
inductive RegCall where
  /-- `liballoc`, of `size` bytes. -/
  | liballoc (size : Addr)
  /-- `libfree`. -/
  | libfree
  /-- `libread`, at `offset`. -/
  | libread (offset : Addr)
  /-- `libwrite`, of `data` at `offset`. -/
  | libwrite (data : BitVec 8) (offset : Addr)

/-- The call, for the register `rgid`. -/
def RegCall.exec : RegCall → Word → Store → Option (ℤ × Store)
  | .liballoc size, rgid, s => Mem.liballoc size rgid s
  | .libfree, rgid, s => Mem.libfree rgid s
  | .libread offset, rgid, s => Mem.libread rgid offset s
  | .libwrite data offset, rgid, s => Mem.libwrite data rgid offset s

/-- Another symbol table. -/
def Mm.withTable (mm : Mm) (t : Fin maxSymtblSz → VmRg) : Mm := { mm with symrgtbl := t }

/-- Another symbol table. -/
def Store.withTable (s : Store) (t : Fin maxSymtblSz → VmRg) : Store :=
  { s with mm := s.mm.withTable t }

/-- Of the symbol table, a call looks at entry `i` only and changes no other: with any table
that has the same entry `i` it does the same, and leaves the rest of that table. -/
def OnlyEntry (i : Fin maxSymtblSz) (f : Store → Option (ℤ × Store)) (s : Store) : Prop :=
  ∀ t : Fin maxSymtblSz → VmRg, t i = s.mm.symrgtbl i →
    f (s.withTable t) = (f s).map fun r =>
      (r.1, r.2.withTable (Function.update t i (r.2.mm.symrgtbl i)))

/-- The register has an entry and the call keeps to it, or the call returns an error and leaves
the `mm_struct` as it is. -/
def InBounds (c : RegCall) (rgid : Word) (s : Store) : Prop :=
  (∃ i, symrg rgid = some i ∧ OnlyEntry i (c.exec rgid) s) ∨
    ∃ s', c.exec rgid s = some (-1, s') ∧ s'.mm = s.mm

/-- When a call is `InBounds`. -/
def Guarded (s : Store) (rgid : Word) : RegCall → Prop
  | .liballoc _ | .libread _ => rgid.toNat < maxSymtblSz
  | .libfree => rgid.toNat ≠ maxSymtblSz
  | .libwrite _ _ => rgid.toNat < maxSymtblSz ∨
      ∃ curVma, getVmaByNum s.mm 0 = some curVma ∧ (rgid.toNat ≠ maxSymtblSz ∨ curVma = none)

/-! ### Accesses -/

/-- The address with which `__read` calls `pg_getval`. -/
def readAddr (rgid : Word) (offset : Addr) (mm : Mm) : Option Word :=
  if getSymrgById rgid then
    (symrg rgid).map fun i => toInt ((mm.symrgtbl i).rgStart + offset)
  else none

/-- The address with which `__write` calls `pg_setval`; the inner `none` is the result `-1` without
a call. -/
def writeAddr (rgid : Word) (offset : Addr) (mm : Mm) : Option (Option Word) :=
  (getVmaByNum mm 0).bind fun curVma =>
    if getSymrgById rgid && curVma.isSome then
      (symrg rgid).map fun i => some (toInt ((mm.symrgtbl i).rgStart + offset))
    else some none

/-- **What `__read` does** is one call of `pg_getval`. -/
theorem read_eq (rgid : Word) (offset : Addr) (s : Store) :
    read rgid offset s =
      (readAddr rgid offset s.mm).bind fun a => (pgGetval a s).map fun r => (0, r.2) := by
  rw [read, readAddr]
  cases getSymrgById rgid with
  | false => rfl
  | true =>
    simp only [Bool.not_true, Bool.false_eq_true, if_false, if_true, Option.bind_eq_bind]
    cases symrg rgid with
    | none => rfl
    | some i => exact Option.map_eq_bind.symm

/-- **What `__write` does** is one call of `pg_setval`, or none. -/
theorem write_eq (rgid : Word) (offset : Addr) (value : BitVec 8) (s : Store) :
    write rgid offset value s =
      (writeAddr rgid offset s.mm).bind fun addr => match addr with
        | none => some (-1, s)
        | some a => (pgSetval a value s).map fun r => (0, r.2) := by
  rw [write, writeAddr]
  cases getVmaByNum s.mm 0 with
  | none => rfl
  | some curVma =>
    cases getSymrgById rgid with
    | false => cases curVma <;> rfl
    | true =>
      cases curVma with
      | none => rfl
      | some n =>
        cases symrg rgid with
        | none => rfl
        | some i => exact Option.map_eq_bind.symm

/-! ### The tests -/

variable {rgid : Word} {i : Fin maxSymtblSz}

theorem symrg_eq_none (h : ¬ rgid.toNat < maxSymtblSz) : symrg rgid = none := dif_neg h

theorem symrg_eq_some (h : rgid.toNat < maxSymtblSz) : symrg rgid = some ⟨rgid.toNat, h⟩ :=
  dif_pos h

/-- **What `get_symrg_byid` lets through**: the registers that have an entry, and one more. -/
theorem getSymrgById_eq_true_iff (rgid : Word) :
    getSymrgById rgid = true ↔ rgid.toNat ≤ maxSymtblSz := by
  have h0 : (0#32).toInt = 0 := rfl
  have h30 : (BitVec.ofNat 32 maxSymtblSz).toInt = 30 := rfl
  rw [getSymrgById, Bool.not_eq_true', Bool.or_eq_false_iff, ← Bool.not_eq_true,
    ← Bool.not_eq_true, BitVec.slt_iff_toInt_lt, BitVec.slt_iff_toInt_lt, h30]
  have hint := BitVec.toInt_eq_toNat_cond rgid
  have hlt := rgid.isLt
  show ¬ rgid.toInt < (0#32).toInt ∧ _ ↔ rgid.toNat ≤ 30
  rw [h0]
  split_ifs at hint <;> omega

/-! ### Another table -/

variable {mm : Mm} {t : Fin maxSymtblSz → VmRg}

/-- What does not touch the symbol table leaves any table as it is. -/
theorem getFreeVmrgArea_withTable (vmaid size : Word) :
    getFreeVmrgArea vmaid size (mm.withTable t) =
      (getFreeVmrgArea vmaid size mm).map fun r => (r.1, r.2.withTable t) := by
  have hvma : getVmaByNum (mm.withTable t) vmaid = getVmaByNum mm vmaid := rfl
  have harea : ∀ n, area (mm.withTable t) n = area mm n := fun _ => rfl
  simp only [getFreeVmrgArea, hvma, harea]
  rcases getVmaByNum mm vmaid with _ | _ | n
  · rfl
  · rfl
  · simp only [Option.bind_eq_bind, Option.bind_some]
    cases area mm n with
    | none => rfl
    | some x =>
      simp only [Option.bind_some]
      cases takeFit (ofInt size) x.vmFreergList <;> rfl

theorem alloc_withTable (hi : symrg rgid = some i) (vmaid : Word) (size : Addr) :
    alloc vmaid rgid size (mm.withTable t) = (alloc vmaid rgid size mm).map fun r =>
      (r.1, r.2.1, r.2.2.withTable (Function.update t i (r.2.2.symrgtbl i))) := by
  have hvma : getVmaByNum (mm.withTable t) vmaid = getVmaByNum mm vmaid := rfl
  have hset : ∀ (mm : Mm) rg, setSymrg (mm.withTable t) i rg =
      (setSymrg mm i rg).withTable (Function.update t i ((setSymrg mm i rg).symrgtbl i)) := by
    intro mm rg
    simp only [setSymrg, Mm.withTable, Function.update_self]
  simp only [alloc, hvma, getFreeVmrgArea_withTable, hi]
  cases getVmaByNum mm vmaid with
  | none => rfl
  | some curVma =>
    simp only [Option.bind_eq_bind, Option.bind_some]
    cases getFreeVmrgArea vmaid (toInt size) mm with
    | none => rfl
    | some r =>
      obtain ⟨found, mm₁⟩ := r
      cases found with
      | some rgnode => simp only [Option.map_some, Option.bind_some, hset]
      | none =>
        have harea : ∀ n, area (mm₁.withTable t) n = area mm₁ n := fun _ => rfl
        simp only [Option.map_some, Option.bind_some, harea]
        cases curVma with
        | none => rfl
        | some n =>
          simp only [Option.bind_some]
          cases area mm₁ n with
          | none => rfl
          | some x =>
            simp only [Option.bind_some]
            cases syscall 17 ⟨2, ofInt vmaid, size⟩ with
            | none => rfl
            | some r => simp only [Option.bind_some, Option.map_some, hset]

theorem enlistVmFreergList_withTable (rg : VmRg) :
    enlistVmFreergList (mm.withTable t) rg =
      (enlistVmFreergList mm rg).map fun r => (r.1, r.2.withTable t) := by
  have harea : area (mm.withTable t) 0 = area mm 0 := rfl
  simp only [enlistVmFreergList, harea]
  cases area mm 0 with
  | none => rfl
  | some x =>
    simp only [Option.bind_eq_bind, Option.bind_some]
    split_ifs <;> rfl

/-- `enlist_vm_freerg_list` does not touch the symbol table. -/
theorem enlist_symrgtbl {rg : VmRg} {r : ℤ × Mm} (h : enlistVmFreergList mm rg = some r) :
    r.2.symrgtbl = mm.symrgtbl := by
  rw [enlistVmFreergList] at h
  cases hx : area mm 0 with
  | none =>
    rw [hx] at h
    cases h
  | some x =>
    rw [hx] at h
    simp only [Option.bind_eq_bind, Option.bind_some] at h
    split_ifs at h <;> cases h <;> rfl

theorem free_withTable (hi : symrg rgid = some i) (ht : t i = mm.symrgtbl i) :
    free rgid (mm.withTable t) = (free rgid mm).map fun r =>
      (r.1, r.2.withTable (Function.update t i (r.2.symrgtbl i))) := by
  have hti : (mm.withTable t).symrgtbl i = mm.symrgtbl i := ht
  have hself : mm.withTable t = mm.withTable (Function.update t i (mm.symrgtbl i)) := by
    rw [← ht, Function.update_eq_self]
  have hset : setSymrg (mm.withTable t) i ⟨0, 0⟩ =
      (setSymrg mm i ⟨0, 0⟩).withTable (Function.update t i ⟨0, 0⟩) := rfl
  simp only [free, hi, Option.bind_eq_bind, Option.bind_some, hti]
  split_ifs with hid hzero
  · rw [Option.map_some, ← hself]
  · rw [Option.map_some, ← hself]
  · rw [hset, enlistVmFreergList_withTable]
    cases hr : enlistVmFreergList (setSymrg mm i ⟨0, 0⟩) (mm.symrgtbl i) with
    | none => rfl
    | some r =>
      have hzero : r.2.symrgtbl i = ⟨0, 0⟩ := by
        rw [enlist_symrgtbl hr]
        exact Function.update_self ..
      simp only [Option.map_some, Option.bind_some, hzero]

theorem findVictimPage_withTable :
    findVictimPage (mm.withTable t) =
      (findVictimPage mm).map fun r => (r.1, r.2.withTable t) := by
  have hfifo : (mm.withTable t).fifoPgn = mm.fifoPgn := rfl
  simp only [findVictimPage, hfifo]
  rcases mm.fifoPgn with _ | _ | ⟨pgn, _ | ⟨pgn', pgns⟩⟩ <;> rfl

theorem pgAccess_withTable (addr : Word) (s : Store) :
    pgAccess addr (s.withTable t) = (pgAccess addr s).map fun r => (r.1, r.2.withTable t) := by
  have hmm : (s.withTable t).mm = s.mm.withTable t := rfl
  have hfree : (s.withTable t).freeFpList = s.freeFpList := rfl
  simp only [pgAccess, pgGetpage]
  split_ifs
  · rfl
  · rw [hmm, hfree, findVictimPage_withTable]
    cases findVictimPage s.mm with
    | none => rfl
    | some r =>
      obtain ⟨vicpgn, mm⟩ := r
      cases vicpgn with
      | none => rfl
      | some v => cases memphyGetFreefp s.freeFpList <;> rfl

/-- An access to a page does not touch the symbol table. -/
theorem pgAccess_symrgtbl {addr : Word} {s : Store} {r : ℤ × Store} (h : pgAccess addr s = some r) :
    r.2.mm.symrgtbl = s.mm.symrgtbl := by
  have hsame := pgAccess_withTable (t := s.mm.symrgtbl) addr s
  have hself : s.withTable s.mm.symrgtbl = s := rfl
  rw [hself, h, Option.map_some, Option.some.injEq] at hsame
  exact congrArg (fun r : ℤ × Store => r.2.mm.symrgtbl) hsame

/-! ### Every call -/

/-- **A register that has an entry**: the call keeps to the entry. -/
theorem onlyEntry_exec (hi : symrg rgid = some i) (c : RegCall) (s : Store) :
    OnlyEntry i (c.exec rgid) s := by
  intro t ht
  have hmm : (s.withTable t).mm = s.mm.withTable t := rfl
  have hti : (s.mm.withTable t).symrgtbl i = s.mm.symrgtbl i := ht
  have hself : s.withTable t = s.withTable (Function.update t i (s.mm.symrgtbl i)) := by
    rw [← ht, Function.update_eq_self]
  have hpg : ∀ addr, (pgAccess addr (s.withTable t)).map (fun r => ((0 : ℤ), r.2)) =
      ((pgAccess addr s).map fun r => ((0 : ℤ), r.2)).map fun r =>
        (r.1, r.2.withTable (Function.update t i (r.2.mm.symrgtbl i))) := by
    intro addr
    rw [pgAccess_withTable]
    cases hr : pgAccess addr s with
    | none => rfl
    | some r =>
      simp only [Option.map_some, pgAccess_symrgtbl hr, ← ht, Function.update_eq_self]
  cases c with
  | liballoc size =>
    simp only [RegCall.exec, liballoc, hmm, alloc_withTable hi]
    cases alloc 0 rgid size s.mm <;> rfl
  | libfree =>
    simp only [RegCall.exec, libfree, hmm, free_withTable hi ht]
    cases free rgid s.mm <;> rfl
  | libread offset =>
    have haddr : readAddr rgid offset (s.mm.withTable t) = readAddr rgid offset s.mm := by
      simp only [readAddr, hi, Option.map_some, hti]
    simp only [RegCall.exec, libread, read_eq, hmm, haddr]
    cases readAddr rgid offset s.mm with
    | none => rfl
    | some a => exact hpg a
  | libwrite data offset =>
    have hvma : getVmaByNum (s.mm.withTable t) 0 = getVmaByNum s.mm 0 := rfl
    have haddr : writeAddr rgid offset (s.mm.withTable t) = writeAddr rgid offset s.mm := by
      simp only [writeAddr, hvma, hi, Option.map_some, hti]
    simp only [RegCall.exec, libwrite, write_eq, hmm, haddr]
    rcases writeAddr rgid offset s.mm with _ | _ | a
    · rfl
    · exact congrArg (fun s => some ((-1 : ℤ), s)) hself
    · have hset : ∀ s, pgSetval a data s = pgAccess a s := fun _ => rfl
      simp only [Option.bind_eq_bind, Option.bind_some, hset, hpg]
      cases pgAccess a s <;> rfl

/-- A register that has no entry is refused by `libfree`, but for the first one. -/
theorem libfree_of_ge (h : ¬ rgid.toNat < maxSymtblSz) (s : Store) :
    libfree rgid s = if rgid.toNat = maxSymtblSz then none else some (-1, s) := by
  rw [libfree, free, symrg_eq_none h]
  by_cases hone : rgid.toNat = maxSymtblSz
  · rw [if_pos hone, (getSymrgById_eq_true_iff rgid).mpr (by omega)]
    rfl
  · have hid : getSymrgById rgid = false := by
      rw [← Bool.not_eq_true, getSymrgById_eq_true_iff]
      omega
    rw [if_neg hone, hid]
    rfl

/-- … and so by `libwrite`, if the look-up of the area comes back, and if it comes back with
`NULL` for the first one too. -/
theorem libwrite_of_ge (h : ¬ rgid.toNat < maxSymtblSz) (data : BitVec 8) (offset : Addr)
    (s : Store) :
    libwrite data rgid offset s = (getVmaByNum s.mm 0).bind fun curVma =>
      if rgid.toNat = maxSymtblSz ∧ curVma ≠ none then none else some (-1, s) := by
  rw [libwrite, write_eq, writeAddr]
  cases getVmaByNum s.mm 0 with
  | none => rfl
  | some curVma =>
    by_cases hone : rgid.toNat = maxSymtblSz
    · have hid : getSymrgById rgid = true := (getSymrgById_eq_true_iff rgid).mpr (by omega)
      cases curVma with
      | none => simp [hid]
      | some n => simp [hid, hone, symrg_eq_none h]
    · have hid : getSymrgById rgid = false := by
        rw [← Bool.not_eq_true, getSymrgById_eq_true_iff]
        omega
      simp [hid, hone]

/-- … and by `libread` and `liballoc` never. -/
theorem libread_of_ge (h : ¬ rgid.toNat < maxSymtblSz) (offset : Addr) (s : Store) :
    libread rgid offset s = none := by
  rw [libread, read_eq, readAddr, symrg_eq_none h]
  split_ifs <;> rfl

theorem liballoc_of_ge (h : ¬ rgid.toNat < maxSymtblSz) (size : Addr) (s : Store) :
    liballoc size rgid s = none := by
  have halloc : alloc 0 rgid size s.mm = none := by
    simp only [alloc, symrg_eq_none h]
    cases getVmaByNum s.mm 0 with
    | none => rfl
    | some curVma =>
      simp only [Option.bind_eq_bind, Option.bind_some]
      cases getFreeVmrgArea 0 (toInt size) s.mm with
      | none => rfl
      | some r =>
        obtain ⟨found, mm₁⟩ := r
        cases found with
        | some rgnode => rfl
        | none => simp
  rw [liballoc, halloc]
  rfl

/-- **When a call keeps to the symbol table**: `ALLOC` and `READ` if the register has an entry,
`FREE` if it is not the first past the end, and `WRITE` if it has an entry, or the look-up of
the area comes back and either the register is not the first past the end or there is no
area. -/
theorem inBounds_iff (c : RegCall) (rgid : Word) (s : Store) :
    InBounds c rgid s ↔ Guarded s rgid c := by
  by_cases hlt : rgid.toNat < maxSymtblSz
  · have hsym := symrg_eq_some hlt
    refine iff_of_true (.inl ⟨_, hsym, onlyEntry_exec hsym c s⟩) ?_
    cases c with
    | liballoc size => exact hlt
    | libfree => exact Nat.ne_of_lt hlt
    | libread offset => exact hlt
    | libwrite data offset => exact .inl hlt
  · have herr : InBounds c rgid s ↔ ∃ s', c.exec rgid s = some (-1, s') ∧ s'.mm = s.mm := by
      refine or_iff_right ?_
      rintro ⟨i, hi, -⟩
      rw [symrg_eq_none hlt] at hi
      cases hi
    rw [herr]
    cases c with
    | liballoc size =>
      refine iff_of_false ?_ hlt
      rintro ⟨s', hs', -⟩
      rw [RegCall.exec, liballoc_of_ge hlt] at hs'
      cases hs'
    | libfree =>
      rw [RegCall.exec, libfree_of_ge hlt, Guarded]
      constructor
      · rintro ⟨s', hs', -⟩ hone
        rw [if_pos hone] at hs'
        cases hs'
      · intro hone
        exact ⟨s, if_neg hone, rfl⟩
    | libread offset =>
      refine iff_of_false ?_ hlt
      rintro ⟨s', hs', -⟩
      rw [RegCall.exec, libread_of_ge hlt] at hs'
      cases hs'
    | libwrite data offset =>
      rw [RegCall.exec, libwrite_of_ge hlt, Guarded, or_iff_right hlt]
      constructor
      · rintro ⟨s', hs', -⟩
        obtain ⟨curVma, hvma, hs'⟩ := Option.bind_eq_some_iff.mp hs'
        refine ⟨curVma, hvma, ?_⟩
        by_contra hno
        rw [not_or, not_not] at hno
        rw [if_pos hno] at hs'
        cases hs'
      · rintro ⟨curVma, hvma, hok⟩
        refine ⟨s, ?_, rfl⟩
        rw [hvma, Option.bind_some, if_neg]
        rintro ⟨hone, harea⟩
        exact hok.elim (fun h => h hone) harea

/-- With an area at hand, `FREE` of register `30` goes past the end of the table, and `READ` of
register `31` follows `NULL`. -/
theorem not_inBounds_past_end :
    ¬ InBounds .libfree 30 ⟨⟨some [⟨0, 0, 0, 0, []⟩], fun _ => ⟨0, 0⟩, some []⟩, []⟩ ∧
      ¬ InBounds (.libread 0) 31 ⟨⟨some [⟨0, 0, 0, 0, []⟩], fun _ => ⟨0, 0⟩, some []⟩, []⟩ := by
  constructor
  · rintro (⟨i, hi, -⟩ | ⟨s', hs', -⟩)
    · cases hi
    · cases hs'
  · rintro (⟨i, hi, -⟩ | ⟨s', hs', -⟩)
    · cases hi
    · cases hs'

end Ossim.Mem
