import Ossim.Mem.Device
import Ossim.Mem.PageFault
import Ossim.Mem.SymbolTable

/-!
# What becomes of a failed access

An access goes down five levels: `run`, `libread` or `libwrite`, `__read` or `__write`,
`pg_getval` or `pg_setval`, and `pg_getpage`; and a status comes back up. `pg_getval` and
`pg_setval` test the status of `pg_getpage`. `__read` and `__write` do not test theirs, and
return `0`. Nor does `pg_getval` store anything in `*data` when the page is there, its call of
`MEMPHY_read` being commented out, and `libread` stores the byte it has not got in the
destination.

So a `READ` that returns at all reports success it has not had; a `WRITE` does when it comes to
an access and the page fault cannot be served (`reports_iff`).

## The model

A byte that may have been stored by no one is an `Option`. A function that has the address of
one also returns what is there after.
-/

namespace Ossim.Mem

/-! ### The functions, with the byte -/

/-- `pg_getval`, where `*data` holds `data`. -/
def pgGetvalTo (addr : Word) (data : Option Byte) (s : Store) : Option (ℤ × Option Byte × Store) :=
  (pgGetval addr s).map fun r => (r.1, data, r.2)

/-- `__read`, where `*data` holds `data`. -/
def readTo (rgid : Word) (offset : Addr) (data : Option Byte) (s : Store) :
    Option (ℤ × Option Byte × Store) := do
  if !getSymrgById rgid then none
  else
    let i ← symrg rgid
    let (_, data, s) ← pgGetvalTo (toInt ((s.mm.symrgtbl i).rgStart + offset)) data s
    some (0, data, s)

/-- `libread`: the result, what it stores in `*destination`, and the state after. -/
def libreadTo (source : Word) (offset : Addr) (s : Store) : Option (ℤ × Option Byte × Store) :=
  readTo source offset none s

/-- The `switch` of `run`, with what it stores at the destination of an instruction: nothing, or a
byte. -/
def executeTo (ins : Inst) (s : Store) : Option (ℤ × Option (Option Byte) × Store) :=
  match ins.opcode with
  | .read => (libreadTo (toInt ins.arg0) ins.arg1 s).map fun r => (r.1, some r.2.1, r.2.2)
  | _ => (execute ins s).map fun r => (r.1, none, r.2)

/-! ### Statuses -/

/-- The address with which an instruction calls `pg_getval` or `pg_setval`, if it does. -/
def accessAddr (ins : Inst) (mm : Mm) : Option Word :=
  match ins.opcode with
  | .read => readAddr (toInt ins.arg0) ins.arg1 mm
  | .write => (writeAddr (toInt ins.arg1) ins.arg2 mm).join
  | _ => none

/-- What the levels above `pg_getpage` return for an access at address `a`, the lowest first. -/
def statuses (ins : Inst) (a : Word) (s : Store) : List (Option ℤ) :=
  match ins.opcode with
  | .read =>
    [(pgGetval a s).map Prod.fst, (read (toInt ins.arg0) ins.arg1 s).map Prod.fst,
      (libread (toInt ins.arg0) ins.arg1 s).map Prod.fst, (execute ins s).map Prod.fst]
  | .write =>
    [(pgSetval a (ins.arg0.setWidth 8) s).map Prod.fst,
      (write (toInt ins.arg1) ins.arg2 (ins.arg0.setWidth 8) s).map Prod.fst,
      (libwrite (ins.arg0.setWidth 8) (toInt ins.arg1) ins.arg2 s).map Prod.fst,
      (execute ins s).map Prod.fst]
  | _ => []

/-- A failure of the access reaches the caller. -/
structure Reports (ins : Inst) (s : Store) : Prop where
  /-- `run` returns `0` only if the page was got, and a `READ` has a byte to store. -/
  success : ∀ dest s', executeTo ins s = some (0, dest, s') →
    (∃ a fpn s₁, accessAddr ins s.mm = some a ∧
      pgGetpage (pagingPgn a) s = some (some fpn, s₁)) ∧
      (ins.opcode = .read → ∃ b, dest = some (some b))
  /-- When `pg_getpage` returns `-1`, no level returns `0`, and nothing is stored at the
  destination. -/
  failure : ∀ a s₁, accessAddr ins s.mm = some a → pgGetpage (pagingPgn a) s = some (none, s₁) →
    some 0 ∉ statuses ins a s ∧ ∀ stat dest s', executeTo ins s = some (stat, dest, s') → dest = none

/-! ### What the functions do -/

variable {s : Store}

/-- The byte is beside the point: these are `libread` … -/
theorem libreadTo_eq (source : Word) (offset : Addr) (s : Store) :
    libreadTo source offset s = (libread source offset s).map fun r => (r.1, none, r.2) := by
  simp only [libreadTo, libread, readTo, read, pgGetvalTo]
  cases getSymrgById source with
  | false => rfl
  | true =>
    simp only [Bool.not_true, Bool.false_eq_true, if_false, Option.bind_eq_bind]
    cases symrg source with
    | none => rfl
    | some i =>
      simp only [Option.bind_some]
      cases pgGetval (toInt ((s.mm.symrgtbl i).rgStart + offset)) s <;> rfl

/-- … and `run` of the model of instructions. -/
theorem executeTo_eq (ins : Inst) (s : Store) :
    (executeTo ins s).map (fun r => (r.1, r.2.2)) = execute ins s := by
  obtain ⟨opcode, arg0, arg1, arg2, arg3⟩ := ins
  cases opcode with
  | read =>
    simp only [executeTo, execute, libreadTo_eq, Option.map_map]
    exact Option.map_id'
  | _ =>
    simp only [executeTo, Option.map_map]
    exact Option.map_id'

/-- What `pg_getval` and `pg_setval` return of a page fault. -/
theorem pgAccess_eq (a : Word) (s : Store) :
    pgAccess a s =
      (pgGetpage (pagingPgn a) s).map fun r => (if r.1.isSome then 0 else -1, r.2) := by
  rw [pgAccess, Option.map_eq_bind]
  rfl

theorem executeTo_read (arg0 arg1 arg2 arg3 : Addr) (s : Store) :
    executeTo ⟨.read, arg0, arg1, arg2, arg3⟩ s = (readAddr (toInt arg0) arg1 s.mm).bind fun a =>
      (pgGetpage (pagingPgn a) s).map fun r => (0, some none, r.2) := by
  simp only [executeTo, libreadTo_eq, libread, read_eq, pgGetval, pgAccess_eq, Option.map_bind,
    Function.comp_def, Option.map_map]

theorem executeTo_write (arg0 arg1 arg2 arg3 : Addr) (s : Store) :
    executeTo ⟨.write, arg0, arg1, arg2, arg3⟩ s = (writeAddr (toInt arg1) arg2 s.mm).bind fun addr =>
      match addr with
      | none => some (-1, none, s)
      | some a => (pgGetpage (pagingPgn a) s).map fun r => (0, none, r.2) := by
  simp only [executeTo, execute, libwrite, write_eq, pgSetval, pgAccess_eq]
  rcases writeAddr (toInt arg1) arg2 s.mm with _ | _ | a
  · rfl
  · rfl
  · simp only [Option.bind_eq_bind, Option.bind_some, Option.map_map]
    cases pgGetpage (pagingPgn a) s <;> rfl

/-- `__read` comes to an access when the register has an entry. -/
theorem readAddr_isSome_iff (rgid : Word) (offset : Addr) (mm : Mm) :
    (readAddr rgid offset mm).isSome ↔ rgid.toNat < maxSymtblSz := by
  rw [readAddr]
  by_cases h : rgid.toNat < maxSymtblSz
  · have hid : getSymrgById rgid = true := (getSymrgById_eq_true_iff rgid).mpr (by omega)
    simp [hid, symrg_eq_some h, h]
  · simp only [symrg_eq_none h, h, iff_false]
    split_ifs <;> simp

/-- … and `__write` when there is also an area. -/
theorem writeAddr_join_isSome_iff (rgid : Word) (offset : Addr) (mm : Mm) :
    (writeAddr rgid offset mm).join.isSome ↔
      rgid.toNat < maxSymtblSz ∧ ∃ n, getVmaByNum mm 0 = some (some n) := by
  rw [writeAddr]
  rcases getVmaByNum mm 0 with _ | _ | n
  · simp
  · simp
  · by_cases h : rgid.toNat < maxSymtblSz
    · have hid : getSymrgById rgid = true := (getSymrgById_eq_true_iff rgid).mpr (by omega)
      simp [hid, symrg_eq_some h, h]
    · simp only [symrg_eq_none h, h, Option.bind_some, false_and, iff_false]
      split_ifs <;> simp

/-! ### `READ` and `WRITE` -/

variable (arg0 arg1 arg2 arg3 : Addr) (s : Store)

/-- A `READ` that returns stores a byte it has not got. -/
theorem reports_read_iff : Reports ⟨.read, arg0, arg1, arg2, arg3⟩ s ↔
    ¬ ((toInt arg0).toNat < maxSymtblSz ∧
      ∃ pgns, s.mm.fifoPgn = some pgns ∧ pgns.length ≠ 1) := by
  constructor
  · rintro h ⟨hrgid, hfifo⟩
    obtain ⟨a, ha⟩ := Option.isSome_iff_exists.mp
      ((readAddr_isSome_iff (toInt arg0) arg1 s.mm).mpr hrgid)
    obtain ⟨⟨fpn, s'⟩, hpage⟩ := Option.isSome_iff_exists.mp
      ((pgGetpage_isSome_iff (pagingPgn a) s).mpr hfifo)
    have hexec := executeTo_read arg0 arg1 arg2 arg3 s
    rw [ha, Option.bind_some, hpage, Option.map_some] at hexec
    obtain ⟨b, hb⟩ := (h.success _ _ hexec).2 rfl
    cases hb
  · intro h
    have hpage : ∀ a, readAddr (toInt arg0) arg1 s.mm = some a →
        pgGetpage (pagingPgn a) s = none := by
      intro a ha
      rw [← Option.not_isSome_iff_eq_none, pgGetpage_isSome_iff]
      intro hfifo
      exact h ⟨(readAddr_isSome_iff _ arg1 s.mm).mp (Option.isSome_of_eq_some ha), hfifo⟩
    constructor
    · intro dest s' hexec
      rw [executeTo_read] at hexec
      obtain ⟨a, ha, hexec⟩ := Option.bind_eq_some_iff.mp hexec
      rw [hpage a ha] at hexec
      cases hexec
    · intro a s₁ ha hfail
      rw [hpage a ha] at hfail
      cases hfail

/-- A `WRITE` reports what becomes of its access just when there is none, or the page fault can be
served. -/
theorem reports_write_iff : Reports ⟨.write, arg0, arg1, arg2, arg3⟩ s ↔
    ¬ ((toInt arg1).toNat < maxSymtblSz ∧ (∃ n, getVmaByNum s.mm 0 = some (some n)) ∧
      (s.mm.fifoPgn = some [] ∨ Exhausted s)) := by
  have haddr : ∀ a, accessAddr ⟨.write, arg0, arg1, arg2, arg3⟩ s.mm = some a ↔
      writeAddr (toInt arg1) arg2 s.mm = some (some a) := fun a => Option.join_eq_some_iff
  constructor
  · rintro h ⟨hrgid, harea, hfails⟩
    obtain ⟨a, ha⟩ := Option.isSome_iff_exists.mp
      ((writeAddr_join_isSome_iff (toInt arg1) arg2 s.mm).mpr ⟨hrgid, harea⟩)
    obtain ⟨s₁, hpage⟩ := (pgGetpage_fails_iff (pagingPgn a) s).mpr hfails
    have hexec := executeTo_write arg0 arg1 arg2 arg3 s
    rw [(haddr a).mp ha] at hexec
    simp only [Option.bind_some, hpage, Option.map_some] at hexec
    obtain ⟨a', fpn, s₂, ha', hpage'⟩ := (h.success _ _ hexec).1
    obtain rfl := Option.some.inj (ha.symm.trans ha')
    rw [hpage] at hpage'
    cases hpage'
  · intro h
    have hserved : ∀ a s₁, accessAddr ⟨.write, arg0, arg1, arg2, arg3⟩ s.mm = some a →
        pgGetpage (pagingPgn a) s ≠ some (none, s₁) := by
      intro a s₁ ha hpage
      obtain ⟨hrgid, harea⟩ := (writeAddr_join_isSome_iff (toInt arg1) arg2 s.mm).mp
        (Option.isSome_of_eq_some ha)
      exact h ⟨hrgid, harea, (pgGetpage_fails_iff (pagingPgn a) s).mp ⟨s₁, hpage⟩⟩
    constructor
    · intro dest s' hexec
      refine ⟨?_, fun hread => InsOpcode.noConfusion hread⟩
      rw [executeTo_write] at hexec
      obtain ⟨addr, ha, hexec⟩ := Option.bind_eq_some_iff.mp hexec
      cases addr with
      | none => cases hexec
      | some a =>
        obtain ⟨⟨fpn, s₁⟩, hpage, -⟩ := Option.map_eq_some_iff.mp hexec
        cases fpn with
        | none => exact absurd hpage (hserved a s₁ ((haddr a).mpr ha))
        | some fpn => exact ⟨a, fpn, s₁, (haddr a).mpr ha, hpage⟩
    · intro a s₁ ha hfail
      exact absurd hfail (hserved a s₁ ha)

/-- **When the status of an access reaches the caller.** Of a `READ`: when it has no value, that
is, when the register has no entry, the pages in use are none that anyone has stored, or there
is one of them. Of a `WRITE`: when it comes to no access, or the page fault can be served. -/
theorem reports_iff :
    (Reports ⟨.read, arg0, arg1, arg2, arg3⟩ s ↔
      ¬ ((toInt arg0).toNat < maxSymtblSz ∧
        ∃ pgns, s.mm.fifoPgn = some pgns ∧ pgns.length ≠ 1)) ∧
      (Reports ⟨.write, arg0, arg1, arg2, arg3⟩ s ↔
        ¬ ((toInt arg1).toNat < maxSymtblSz ∧ (∃ n, getVmaByNum s.mm 0 = some (some n)) ∧
          (s.mm.fifoPgn = some [] ∨ Exhausted s))) :=
  ⟨reports_read_iff arg0 arg1 arg2 arg3 s, reports_write_iff arg0 arg1 arg2 arg3 s⟩

/-- No page is in use, so no page fault can be served: both return `0`. -/
theorem no_victim_not_reported :
    ¬ Reports ⟨.read, 0, 20, 0, 0⟩ ⟨⟨some [⟨0, 0, 0, 0, []⟩], fun _ => ⟨0, 300⟩, some []⟩, []⟩ ∧
      ¬ Reports ⟨.write, 100, 0, 20, 0⟩
        ⟨⟨some [⟨0, 0, 0, 0, []⟩], fun _ => ⟨0, 300⟩, some []⟩, []⟩ := by
  constructor
  · intro h
    obtain ⟨-, hbyte⟩ := h.success (some none) _ rfl
    obtain ⟨b, hb⟩ := hbyte rfl
    cases hb
  · intro h
    obtain ⟨⟨a, fpn, s₁, -, hpage⟩, -⟩ := h.success none _ rfl
    rw [pgGetpage_of_nil _ rfl] at hpage
    cases hpage

end Ossim.Mem
