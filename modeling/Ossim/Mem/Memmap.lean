import Ossim.Mem.Device

/-!
# The memory system call

`_syscall` with number 17 comes to `__sys_memmap`, which does what the register `a1` says: it
asks for two functions of the virtual memory that have no statement left, copies a frame from
the RAM to the swap device, or reads or writes a byte of the RAM. It is given the kernel whose
devices these are; but what it works on is the kernel of a PCB of its own making, a block in
which no one has stored a device. So the call does what the operation does to the kernel when
the operation needs no device, and never when it needs one and has it (`sameEffect_iff`).

## The model

Devices are numbered, so that two pointers may lead to one device. The kernel is the two
pointers that the operations follow. As for regions, there is no result where a pointer is
followed that no one has stored; nor where a byte is copied that no one has stored, which is
what `MEMPHY_read` leaves behind when it fails.
-/

namespace Ossim.Mem

/-- `struct memphy_struct *`: a device, or `NULL` (the inner `none`), or a pointer no one has
stored. -/
abbrev MemphyPtr : Type := Option (Option ℕ)

/-- `struct krnl_t`, as far as the operations go, with the devices there are. -/
structure DeviceKrnl where
  /-- The devices. -/
  memphys : ℕ → Memphy
  /-- `mram`. -/
  mram : MemphyPtr
  /-- `active_mswp`. -/
  activeMswp : MemphyPtr

/-! ### The devices -/

/-- `MEMPHY_read` through a pointer: the result, and what is stored in `*value`. -/
def memphyReadAt (memphys : ℕ → Memphy) (mp : MemphyPtr) (addr : Addr) :
    Option (ℤ × Option Byte × (ℕ → Memphy)) :=
  match mp with
  | none => none
  | some none => some (-1, none, memphys)
  | some (some d) => (memphyRead (memphys d) addr).map fun r =>
      (r.1, r.2.1, Function.update memphys d r.2.2)

/-- `MEMPHY_write` through a pointer. -/
def memphyWriteAt (memphys : ℕ → Memphy) (mp : MemphyPtr) (addr : Addr) (data : Byte) :
    Option (ℤ × (ℕ → Memphy)) :=
  match mp with
  | none => none
  | some none => some (-1, memphys)
  | some (some d) => (memphyWrite (memphys d) addr data).map fun r =>
      (r.1, Function.update memphys d r.2)

/-- The loop of `__swap_cp_page`, with `k` iterations to go. -/
def swapCpFrom (mpsrc : MemphyPtr) (srcfpn : Addr) (mpdst : MemphyPtr) (dstfpn : Addr) :
    ℕ → ℕ → (ℕ → Memphy) → Option (ℕ → Memphy)
  | 0, _, memphys => some memphys
  | k + 1, cellidx, memphys => do
    let addrsrc := srcfpn * 256 + BitVec.ofNat 64 cellidx
    let addrdst := dstfpn * 256 + BitVec.ofNat 64 cellidx
    let (_, data, memphys) ← memphyReadAt memphys mpsrc addrsrc
    let (_, memphys) ← memphyWriteAt memphys mpdst addrdst (← data)
    swapCpFrom mpsrc srcfpn mpdst dstfpn k (cellidx + 1) memphys

/-- `__swap_cp_page`. -/
def swapCpPage (memphys : ℕ → Memphy) (mpsrc : MemphyPtr) (srcfpn : Addr) (mpdst : MemphyPtr)
    (dstfpn : Addr) : Option (ℕ → Memphy) :=
  swapCpFrom mpsrc srcfpn mpdst dstfpn pagingPagesz.toNat 0 memphys

/-- `__mm_swap_page`. -/
def mmSwapPage (krnl : DeviceKrnl) (vicfpn swpfpn : Addr) : Option DeviceKrnl :=
  (swapCpPage krnl.memphys krnl.mram vicfpn krnl.activeMswp swpfpn).map fun memphys =>
    { krnl with memphys := memphys }

/-! ### The call -/

/-- The `switch` of `__sys_memmap`, for a caller with the kernel `krnl`. -/
def memop (krnl : DeviceKrnl) (regs : ScRegs) : Option (DeviceKrnl × ScRegs) :=
  match (toInt regs.a1).toNat with
  | 1 => (vmapPgdMemset regs.a2 (toInt regs.a3)).map fun _ => (krnl, regs)
  | 2 => (incVmaLimit (toInt regs.a2) regs.a3).map fun _ => (krnl, regs)
  | 3 => (mmSwapPage krnl regs.a2 regs.a3).map fun krnl => (krnl, regs)
  | 4 => do
    let (_, value, memphys) ← memphyReadAt krnl.memphys krnl.mram regs.a2
    some ({ krnl with memphys := memphys }, { regs with a3 := (← value).signExtend 64 })
  | 5 => do
    let (_, memphys) ← memphyWriteAt krnl.memphys krnl.mram regs.a2 (regs.a3.setWidth 8)
    some ({ krnl with memphys := memphys }, regs)
  | _ => some (krnl, regs)

/-- `__sys_memmap`. The caller is a PCB of its own, whose kernel no one has stored anything in. -/
def sysMemmapOn (krnl : DeviceKrnl) (_pid : Word) (regs : ScRegs) :
    Option (ℤ × DeviceKrnl × ScRegs) := do
  let (caller, regs) ← memop ⟨krnl.memphys, none, none⟩ regs
  some (0, { krnl with memphys := caller.memphys }, regs)

/-- `_syscall`, by the table `syscall.tbl`. -/
def syscallOn (krnl : DeviceKrnl) (pid nr : Word) (regs : ScRegs) :
    Option (ℤ × DeviceKrnl × ScRegs) :=
  match nr.toNat with
  | 0 => some (0, krnl, regs)
  | 17 => sysMemmapOn krnl pid regs
  | _ => some (0, krnl, regs)

/-- The operation done to the kernel itself. -/
def direct (krnl : DeviceKrnl) (regs : ScRegs) : Option (ℤ × DeviceKrnl × ScRegs) :=
  (memop krnl regs).map fun r => (0, r)

/-- Where the operation has a result, the call has the same. -/
def SameEffect (krnl : DeviceKrnl) (pid : Word) (regs : ScRegs) : Prop :=
  ∀ r, direct krnl regs = some r → syscallOn krnl pid 17 regs = some r

/-- The operation is one that needs a device. -/
def UsesDevice (regs : ScRegs) : Prop :=
  (toInt regs.a1).toNat = 3 ∨ (toInt regs.a1).toNat = 4 ∨ (toInt regs.a1).toNat = 5

instance (regs : ScRegs) : Decidable (UsesDevice regs) := inferInstanceAs (Decidable (_ ∨ _ ∨ _))

/-- `SYSMEM_IO_WRITE` of `x` at `a` stores its low byte there and nothing else, and
`SYSMEM_IO_READ` at `a` then leaves this byte in `a3`. -/
def WritesThenReads (f : DeviceKrnl → ScRegs → Option (ℤ × DeviceKrnl × ScRegs))
    (krnl : DeviceKrnl) (a x : Addr) : Prop :=
  ∃ d krnl', krnl.mram = some (some d) ∧
    krnl' = { krnl with memphys := Function.update krnl.memphys d { krnl.memphys d with
      storage := (krnl.memphys d).storage.set a.toNat (x.setWidth 8) } } ∧
    (∃ regs, f krnl ⟨5, a, x⟩ = some (0, krnl', regs)) ∧
    ∀ y, ∃ regs, f krnl' ⟨4, a, y⟩ = some (0, krnl', regs) ∧ regs.a3.setWidth 8 = x.setWidth 8

/-- A byte can be read through the pointer: from a random access device, at an address of it. -/
def Readable (memphys : ℕ → Memphy) (mp : MemphyPtr) (addr : Addr) : Prop :=
  ∃ d, mp = some (some d) ∧ (memphys d).rdmflg ≠ 0 ∧ addr.toNat < (memphys d).storage.length

/-- A write through the pointer comes back, refused or not. -/
def Writable (memphys : ℕ → Memphy) (mp : MemphyPtr) (addr : Addr) : Prop :=
  mp = some none ∨
    ∃ d, mp = some (some d) ∧
      ((memphys d).rdmflg ≠ 0 → addr.toNat < (memphys d).storage.length)

/-- The operation has a result on the kernel. -/
def Defined (krnl : DeviceKrnl) (regs : ScRegs) : Prop :=
  match (toInt regs.a1).toNat with
  | 3 => ∀ c < 256,
      Readable krnl.memphys krnl.mram (regs.a2 * 256 + BitVec.ofNat 64 c) ∧
        Writable krnl.memphys krnl.activeMswp (regs.a3 * 256 + BitVec.ofNat 64 c)
  | 4 => Readable krnl.memphys krnl.mram regs.a2
  | 5 => Writable krnl.memphys krnl.mram regs.a2
  | _ => True

/-! ### Through a pointer -/

variable {memphys memphys' : ℕ → Memphy} {mp : MemphyPtr} {addr : Addr}

/-- What a write to some device leaves alone: what can be read and written. -/
def SameShape (memphys memphys' : ℕ → Memphy) : Prop :=
  ∀ d, (memphys' d).rdmflg = (memphys d).rdmflg ∧
    (memphys' d).storage.length = (memphys d).storage.length

theorem SameShape.readable_iff (h : SameShape memphys memphys') :
    Readable memphys' mp addr ↔ Readable memphys mp addr := by
  simp only [Readable, (h _).1, (h _).2]

theorem SameShape.writable_iff (h : SameShape memphys memphys') :
    Writable memphys' mp addr ↔ Writable memphys mp addr := by
  simp only [Writable, (h _).1, (h _).2]

/-- **A read** stores a byte where one can be read, and changes no device. -/
theorem memphyReadAt_of_readable (h : Readable memphys mp addr) :
    ∃ v, memphyReadAt memphys mp addr = some (0, some v, memphys) := by
  obtain ⟨d, rfl, hrandom, hlt⟩ := h
  refine ⟨(memphys d).storage[addr.toNat], ?_⟩
  simp only [memphyReadAt, memphyRead, if_pos hrandom, List.getElem?_eq_getElem hlt,
    Option.map_some, Function.update_eq_self]

/-- … and only there. -/
theorem readable_of_memphyReadAt {stat : ℤ} {v : Byte}
    (h : memphyReadAt memphys mp addr = some (stat, some v, memphys')) :
    Readable memphys mp addr := by
  rcases mp with _ | _ | d
  · cases h
  · cases h
  · obtain ⟨⟨stat', value, mp'⟩, hread, hr⟩ := Option.map_eq_some_iff.mp h
    cases hr
    by_cases hrandom : (memphys d).rdmflg = 0
    · rw [memphyRead, if_neg (not_not.mpr hrandom), memphySeqRead, if_pos hrandom] at hread
      cases hread
    · rw [memphyRead, if_pos hrandom] at hread
      obtain ⟨v', hv', -⟩ := Option.map_eq_some_iff.mp hread
      exact ⟨d, rfl, hrandom, (List.getElem?_eq_some_iff.mp hv').1⟩

/-- **A write** that can be made comes back, and leaves every device of the shape it had. -/
theorem memphyWriteAt_of_writable (h : Writable memphys mp addr) (data : Byte) :
    ∃ stat memphys', memphyWriteAt memphys mp addr data = some (stat, memphys') ∧
      SameShape memphys memphys' := by
  rcases h with rfl | ⟨d, rfl, hlt⟩
  · exact ⟨-1, memphys, rfl, fun _ => ⟨rfl, rfl⟩⟩
  · by_cases hrandom : (memphys d).rdmflg = 0
    · refine ⟨-1, memphys, ?_, fun _ => ⟨rfl, rfl⟩⟩
      simp only [memphyWriteAt, memphyWrite, memphySeqWrite, hrandom, ne_eq, not_true_eq_false,
        if_false, if_true, Option.map_some, Function.update_eq_self]
    · refine ⟨0, Function.update memphys d { memphys d with
        storage := (memphys d).storage.set addr.toNat data }, ?_, ?_⟩
      · simp only [memphyWriteAt, memphyWrite, ne_eq, hrandom, not_false_eq_true, if_true, setByte,
          if_pos (hlt hrandom), Option.map_some]
      · intro e
        by_cases hed : e = d
        · rw [hed, Function.update_self]
          exact ⟨rfl, List.length_set ..⟩
        · rw [Function.update_of_ne hed]
          exact ⟨rfl, rfl⟩

/-- … and no other does. -/
theorem writable_of_memphyWriteAt {data : Byte} {r : ℤ × (ℕ → Memphy)}
    (h : memphyWriteAt memphys mp addr data = some r) : Writable memphys mp addr := by
  rcases mp with _ | _ | d
  · cases h
  · exact .inl rfl
  · refine .inr ⟨d, rfl, ?_⟩
    intro hrandom
    obtain ⟨r', hwrite, -⟩ := Option.map_eq_some_iff.mp h
    rw [memphyWrite, if_pos hrandom, setByte] at hwrite
    split_ifs at hwrite with hlt
    · exact hlt
    · cases hwrite

/-! ### Swapping -/

variable {mpsrc mpdst : MemphyPtr} {srcfpn dstfpn : Addr}

/-- **A cell** is copied when it can be read and written, and the rest goes on from a state of the
same shape. -/
theorem swapCpFrom_succ {cellidx : ℕ} {memphys : ℕ → Memphy}
    (hread : Readable memphys mpsrc (srcfpn * 256 + BitVec.ofNat 64 cellidx))
    (hwrite : Writable memphys mpdst (dstfpn * 256 + BitVec.ofNat 64 cellidx)) (k : ℕ) :
    ∃ memphys', SameShape memphys memphys' ∧
      swapCpFrom mpsrc srcfpn mpdst dstfpn (k + 1) cellidx memphys =
        swapCpFrom mpsrc srcfpn mpdst dstfpn k (cellidx + 1) memphys' := by
  obtain ⟨v, hread⟩ := memphyReadAt_of_readable hread
  obtain ⟨stat, memphys', hwrite, hshape⟩ := memphyWriteAt_of_writable hwrite v
  refine ⟨memphys', hshape, ?_⟩
  rw [swapCpFrom]
  simp only [hread, hwrite, Option.bind_eq_bind, Option.bind_some]

/-- When it cannot, the copying ends without a result. -/
theorem readable_of_swapCpFrom {cellidx k : ℕ} {memphys : ℕ → Memphy}
    (h : (swapCpFrom mpsrc srcfpn mpdst dstfpn (k + 1) cellidx memphys).isSome) :
    Readable memphys mpsrc (srcfpn * 256 + BitVec.ofNat 64 cellidx) ∧
      Writable memphys mpdst (dstfpn * 256 + BitVec.ofNat 64 cellidx) := by
  obtain ⟨_, h⟩ := Option.isSome_iff_exists.mp h
  rw [swapCpFrom] at h
  obtain ⟨⟨stat, value, memphys₁⟩, hread, h⟩ := Option.bind_eq_some_iff.mp h
  obtain ⟨v, hv, h⟩ := Option.bind_eq_some_iff.mp h
  obtain ⟨r, hwrite, -⟩ := Option.bind_eq_some_iff.mp h
  obtain rfl : value = some v := hv
  have hreadable := readable_of_memphyReadAt hread
  obtain ⟨v', hread'⟩ := memphyReadAt_of_readable hreadable
  rw [hread'] at hread
  cases hread
  exact ⟨hreadable, writable_of_memphyWriteAt hwrite⟩

theorem swapCpFrom_isSome_iff (k cellidx : ℕ) (memphys : ℕ → Memphy) :
    (swapCpFrom mpsrc srcfpn mpdst dstfpn k cellidx memphys).isSome ↔
      ∀ i < k, Readable memphys mpsrc (srcfpn * 256 + BitVec.ofNat 64 (cellidx + i)) ∧
        Writable memphys mpdst (dstfpn * 256 + BitVec.ofNat 64 (cellidx + i)) := by
  induction k generalizing cellidx memphys with
  | zero => simp [swapCpFrom]
  | succ k ih =>
    have hsplit : ∀ P : ℕ → Prop, (∀ i < k + 1, P (cellidx + i)) ↔
        P cellidx ∧ ∀ i < k, P (cellidx + 1 + i) := by
      intro P
      rw [Nat.forall_lt_succ_left]
      simp only [Nat.add_zero, Nat.add_assoc, Nat.add_comm 1]
    rw [hsplit fun c => Readable memphys mpsrc (srcfpn * 256 + BitVec.ofNat 64 c) ∧
      Writable memphys mpdst (dstfpn * 256 + BitVec.ofNat 64 c)]
    constructor
    · intro h
      have hcell := readable_of_swapCpFrom h
      obtain ⟨memphys', hshape, hrest⟩ := swapCpFrom_succ hcell.1 hcell.2 k
      rw [hrest, ih] at h
      simp only [hshape.readable_iff, hshape.writable_iff] at h
      exact ⟨hcell, h⟩
    · rintro ⟨hcell, h⟩
      obtain ⟨memphys', hshape, hrest⟩ := swapCpFrom_succ hcell.1 hcell.2 k
      rw [hrest, ih]
      simpa only [hshape.readable_iff, hshape.writable_iff] using h

/-! ### The operations -/

/-- **When an operation has a result.** -/
theorem direct_isSome_iff (krnl : DeviceKrnl) (regs : ScRegs) :
    (direct krnl regs).isSome ↔ Defined krnl regs := by
  simp only [direct, Option.isSome_map, memop, Defined]
  generalize (toInt regs.a1).toNat = op
  match op with
  | 0 => exact iff_of_true rfl trivial
  | 1 => exact iff_of_true rfl trivial
  | 2 => exact iff_of_true rfl trivial
  | 3 =>
    simp only [mmSwapPage, swapCpPage, Option.isSome_map, swapCpFrom_isSome_iff, Nat.zero_add]
    rfl
  | 4 =>
    constructor
    · intro h
      obtain ⟨_, h⟩ := Option.isSome_iff_exists.mp h
      obtain ⟨⟨stat, value, memphys⟩, hread, h⟩ := Option.bind_eq_some_iff.mp h
      obtain ⟨v, hv, -⟩ := Option.bind_eq_some_iff.mp h
      obtain rfl : value = some v := hv
      exact readable_of_memphyReadAt hread
    · intro h
      obtain ⟨v, hread⟩ := memphyReadAt_of_readable h
      simp only [hread, Option.bind_eq_bind, Option.bind_some, Option.isSome_some]
  | 5 =>
    constructor
    · intro h
      obtain ⟨_, h⟩ := Option.isSome_iff_exists.mp h
      obtain ⟨r, hwrite, -⟩ := Option.bind_eq_some_iff.mp h
      exact writable_of_memphyWriteAt hwrite
    · intro h
      obtain ⟨stat, memphys, hwrite, -⟩ := memphyWriteAt_of_writable h (regs.a3.setWidth 8)
      simp only [hwrite, Option.bind_eq_bind, Option.bind_some, Option.isSome_some]
  | _ + 6 => exact iff_of_true rfl trivial

/-- **What the call does**: of an operation that needs a device it has no result, whatever the
kernel is … -/
theorem syscallOn_of_usesDevice (krnl : DeviceKrnl) (pid : Word) {regs : ScRegs}
    (h : UsesDevice regs) : syscallOn krnl pid 17 regs = none := by
  show sysMemmapOn krnl pid regs = none
  rcases h with h | h | h
  · simp only [sysMemmapOn, memop, h]
    rfl
  · simp only [sysMemmapOn, memop, h]
    rfl
  · simp only [sysMemmapOn, memop, h]
    rfl

/-- … and another one changes nothing, done to the kernel or not. -/
theorem memop_of_not_usesDevice (krnl : DeviceKrnl) {regs : ScRegs} (h : ¬ UsesDevice regs) :
    memop krnl regs = some (krnl, regs) := by
  rw [UsesDevice] at h
  simp only [memop]
  generalize (toInt regs.a1).toNat = op at h
  match op, h with
  | 0, _ => rfl
  | 1, _ => rfl
  | 2, _ => rfl
  | 3, h => exact absurd (.inl rfl) h
  | 4, h => exact absurd (.inr (.inl rfl)) h
  | 5, h => exact absurd (.inr (.inr rfl)) h
  | _ + 6, _ => rfl

/-- The call is `sysMemmap`, which knows nothing of the kernel. -/
theorem sysMemmapOn_eq (krnl : DeviceKrnl) (pid : Word) (regs : ScRegs) :
    sysMemmapOn krnl pid regs = (sysMemmap regs).map fun r => (r.1, krnl, r.2) := by
  simp only [sysMemmapOn, memop, sysMemmap]
  generalize (toInt regs.a1).toNat = op
  rcases op with _ | _ | _ | _ | _ | _ | _ <;> rfl

/-- Done to the kernel itself, a byte written is read back. -/
theorem direct_writesThenReads {krnl : DeviceKrnl} {d : ℕ} {a : Addr}
    (hmram : krnl.mram = some (some d)) (hrandom : (krnl.memphys d).rdmflg ≠ 0)
    (ha : a.toNat < (krnl.memphys d).storage.length) (x : Addr) :
    WritesThenReads direct krnl a x := by
  refine ⟨d, _, hmram, rfl, ⟨⟨5, a, x⟩, ?_⟩, fun y => ⟨⟨4, a, (x.setWidth 8).signExtend 64⟩, ?_, ?_⟩⟩
  · have hop : (toInt 5).toNat = 5 := by decide
    simp only [direct, memop, hop, memphyWriteAt, hmram, memphyWrite, if_pos hrandom, setByte,
      if_pos ha, Option.map_some, Option.bind_eq_bind, Option.bind_some]
  · have hop : (toInt 4).toNat = 4 := by decide
    simp only [direct, memop, hop, memphyReadAt, hmram, memphyRead, Function.update_self,
      if_pos hrandom, List.getElem?_set_self ha, Option.map_some, Option.bind_eq_bind,
      Option.bind_some, Function.update_idem]
  · apply BitVec.eq_of_getLsbD_eq
    intro i hi
    have hi' : i < 64 := by omega
    simp only [BitVec.getLsbD_setWidth, BitVec.getLsbD_signExtend, hi, hi', decide_true,
      Bool.true_and, if_true]

/-! ### The call and the operation -/

/-- **When the call does what the operation does**: when the operation needs no device, or has no
result on the kernel itself. So no byte that the call writes is read back by it. -/
theorem sameEffect_iff (krnl : DeviceKrnl) (pid : Word) (regs : ScRegs) :
    (SameEffect krnl pid regs ↔ ¬ (UsesDevice regs ∧ Defined krnl regs)) ∧
      ∀ a x, ¬ WritesThenReads (fun krnl regs => syscallOn krnl pid 17 regs) krnl a x := by
  constructor
  · by_cases huses : UsesDevice regs
    · simp only [SameEffect, syscallOn_of_usesDevice krnl pid huses, huses, true_and,
        ← direct_isSome_iff]
      cases direct krnl regs <;> simp
    · have hsame : syscallOn krnl pid 17 regs = direct krnl regs := by
        show sysMemmapOn krnl pid regs = _
        rw [sysMemmapOn, direct, memop_of_not_usesDevice _ huses, memop_of_not_usesDevice _ huses]
        rfl
      simp only [SameEffect, hsame, huses, false_and, not_false_eq_true]
      exact iff_of_true (fun _ h => h) trivial
  · rintro a x ⟨d, krnl', -, -, ⟨regs', hwrite⟩, -⟩
    have hop : (toInt 5).toNat = 5 := by decide
    have huses : UsesDevice ⟨5, a, x⟩ := .inr (.inr hop)
    simp only [syscallOn_of_usesDevice krnl pid huses] at hwrite
    cases hwrite

/-- A RAM of two bytes. -/
def twoBytes : DeviceKrnl := ⟨fun _ => ⟨[0, 0], 2, 1, 0, ⟨[], true⟩⟩, some (some 0), some (some 1)⟩

/-- The call does not write its second byte. -/
theorem io_write_lost : ¬ SameEffect twoBytes 1 ⟨5, 1, 7⟩ := by
  intro h
  have hcall := h _ rfl
  rw [syscallOn_of_usesDevice twoBytes 1 (.inr (.inr (by decide)))] at hcall
  cases hcall

end Ossim.Mem
