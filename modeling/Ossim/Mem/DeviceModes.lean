import Ossim.Machine.Run
import Ossim.Mem.Device

/-!
# Random and sequential access

`init_memphy` makes a device that is read and written at any address, or one that is read
and written through a cursor; to the program they should look alike. `MEMPHY_read` and
`MEMPHY_write` take the second way when `rdmflg` is not set, and then `MEMPHY_seq_read` and
`MEMPHY_seq_write` refuse, as not compatible, a device whose `rdmflg` is not set: the test is
the wrong way round. So every call on a sequential device returns `-1`, and a device works
as a memory just when it is a random access device, or is not used (`serves_iff`).

The cursor itself would go where it should (`memphyMvCsr_cursor`), and the two refuse just the
devices they were written for (`memphySeqRead_of_random`).
-/

namespace Ossim.Mem

open Machine

/-- The calls. -/
inductive MemOp where
  /-- `MEMPHY_read`. -/
  | read (addr : Addr)
  /-- `MEMPHY_write`. -/
  | write (addr : Addr) (data : Byte)

/-- The address a call is about. -/
def MemOp.addr : MemOp → Addr
  | .read addr | .write addr _ => addr

/-- A call: the result, what is stored in `*value`, and the device after. -/
def MemOp.exec : MemOp → Memphy → Option (ℤ × Option Byte × Memphy)
  | .read addr, mp => memphyRead mp addr
  | .write addr data, mp => (memphyWrite mp addr data).map fun r => (r.1, none, r.2)

/-- A call on a device; after a call without a value there is no device to speak of. -/
def memMove (op : MemOp) (mp : Option Memphy) : Option Memphy :=
  (mp.bind op.exec).map fun r => r.2.2

/-- The result of a call, and what it stores in `*value`. -/
def memResult (op : MemOp) (mp : Option Memphy) : List (ℤ × Option Byte) :=
  ((mp.bind op.exec).map fun r => (r.1, r.2.1)).toList

/-- What a call does to the bytes last written, by address. -/
def store : MemOp → (Addr → Byte) → Addr → Byte
  | .read _, m => m
  | .write addr data, m => Function.update m addr data

/-- A call, on a device and on the bytes last written. -/
def deviceMove (op : MemOp) (s : Option Memphy × (Addr → Byte)) : Option Memphy × (Addr → Byte) :=
  (memMove op s.1, store op s.2)

/-- A call returns `0`, a read the byte last written; it changes no other byte; and it leaves the
cursor of a sequential device at its address. -/
def Serves (s : Option Memphy × (Addr → Byte)) (op : MemOp) : Prop :=
  ∃ mp value mp', s.1 = some mp ∧ op.exec mp = some (0, value, mp') ∧
    (∀ addr, op = .read addr → value = some (s.2 addr)) ∧
    (∀ addr, addr ≠ op.addr → mp'.storage[addr.toNat]? = mp.storage[addr.toNat]?) ∧
    (mp.rdmflg = 0 → mp'.cursor = op.addr.toNat)

/-! ### A sequential device -/

variable {mp : Memphy}

/-- Every call on a sequential device is refused. -/
theorem exec_of_sequential (h : mp.rdmflg = 0) (op : MemOp) : op.exec mp = some (-1, none, mp) := by
  cases op with
  | read addr => rw [MemOp.exec, memphyRead, if_neg (not_not.mpr h), memphySeqRead, if_pos h]
  | write addr data =>
    rw [MemOp.exec, memphyWrite, if_neg (not_not.mpr h), memphySeqWrite, if_pos h]
    rfl

/-- On a random access device, where it is never called, `MEMPHY_seq_read` would read the byte and
leave the cursor at it. -/
theorem memphySeqRead_of_random (h : mp.rdmflg ≠ 0) {addr : Addr}
    (ha : (addr.toNat : ℤ) < mp.maxsz) :
    memphySeqRead mp addr =
      mp.storage[addr.toNat]?.map fun v => (0, some v, { mp with cursor := addr.toNat }) := by
  have hcsr : memphyMvCsr mp addr = { mp with cursor := addr.toNat } := by
    rw [← memphyMvCsr_cursor ha]
    rfl
  rw [memphySeqRead, if_neg h, hcsr]

/-! ### A random access device -/

/-- What a random access device keeps: it holds the bytes last written. -/
structure Holding (mp : Memphy) (m : Addr → Byte) : Prop where
  /-- It is a random access device. -/
  random : mp.rdmflg ≠ 0
  /-- The addresses below `maxsz` are bytes of the device. -/
  room : mp.maxsz ≤ mp.storage.length
  /-- The bytes. -/
  bytes : ∀ addr : Addr, addr.toNat < mp.storage.length → mp.storage[addr.toNat]? = some (m addr)

variable {m : Addr → Byte}

/-- A call at an address of the device does what it should, and the device holds the bytes last
written afterwards. -/
theorem Holding.serves (h : Holding mp m) {op : MemOp} (ha : (op.addr.toNat : ℤ) < mp.maxsz) :
    Serves (some mp, m) op ∧
      ∃ mp', memMove op (some mp) = some mp' ∧ Holding mp' (store op m) ∧ mp'.maxsz = mp.maxsz := by
  have hlt : op.addr.toNat < mp.storage.length := by
    have := h.room
    omega
  cases op with
  | read addr =>
    have hexec : (MemOp.read addr).exec mp = some (0, some (m addr), mp) := by
      rw [MemOp.exec, memphyRead, if_pos h.random, h.bytes addr hlt]
      rfl
    refine ⟨⟨mp, _, mp, rfl, hexec, ?_, fun _ _ => rfl, fun h0 => absurd h0 h.random⟩, mp, ?_, h,
      rfl⟩
    · rintro _ ⟨⟩
      rfl
    · rw [memMove, Option.bind_some, hexec]
      rfl
  | write addr data =>
    have hlt : addr.toNat < mp.storage.length := hlt
    have hexec : (MemOp.write addr data).exec mp =
        some (0, none, { mp with storage := mp.storage.set addr.toNat data }) := by
      rw [MemOp.exec, memphyWrite, if_pos h.random, setByte, if_pos hlt]
      rfl
    have hne : ∀ addr' : Addr, addr' ≠ addr →
        (mp.storage.set addr.toNat data)[addr'.toNat]? = mp.storage[addr'.toNat]? :=
      fun _ h => List.getElem?_set_ne fun he => h (BitVec.eq_of_toNat_eq he.symm)
    refine ⟨⟨mp, _, _, rfl, hexec, nofun, hne, fun h0 => absurd h0 h.random⟩,
      { mp with storage := mp.storage.set addr.toNat data }, ?_, ?_, rfl⟩
    · rw [memMove, Option.bind_some, hexec]
      rfl
    · refine ⟨h.random, by simpa using h.room, ?_⟩
      intro addr' hlt'
      by_cases haddr : addr' = addr
      · subst haddr
        rw [store, Function.update_self]
        exact List.getElem?_set_self hlt
      · rw [store, Function.update_of_ne haddr, ← h.bytes addr' (by simpa using hlt')]
        exact hne addr' haddr

theorem Holding.along (h : Holding mp m) {ops : List MemOp}
    (ha : ∀ op ∈ ops, (op.addr.toNat : ℤ) < mp.maxsz) :
    Along deviceMove Serves ops (some mp, m) := by
  induction ops generalizing mp m with
  | nil => trivial
  | cons op ops ih =>
    obtain ⟨hserves, mp', hmp', h', hmaxsz⟩ := h.serves (ha op List.mem_cons_self)
    refine ⟨hserves, ?_⟩
    rw [deviceMove, hmp']
    exact ih h' fun op hop => hmaxsz ▸ ha op (List.mem_cons_of_mem _ hop)

/-- A random access device as `init_memphy` leaves it. -/
theorem holding_initMemphy (mp : Memphy) (maxSize : Addr) {randomflg : Word} (h : randomflg ≠ 0) :
    Holding (initMemphy mp maxSize randomflg) fun _ => 0 where
  random := by
    rw [initMemphy_rdmflg, if_pos h]
    decide
  room := by
    rw [initMemphy_maxsz, initMemphy_storage, List.length_replicate]
    exact toInt_toInt_le maxSize
  bytes := by
    intro addr hlt
    rw [initMemphy_storage, List.length_replicate] at hlt
    rw [initMemphy_storage, List.getElem?_replicate_of_lt hlt]

/-- **Which devices work as a memory.** Of calls at addresses below `maxsz` on a device as
`init_memphy` leaves it: every call does what it should just when the device is a random
access device or there is no call; and a sequential and a random access device of one size
answer alike just when there is no call. -/
theorem serves_iff (mp : Memphy) (maxSize : Addr) (ops : List MemOp)
    (ha : ∀ op ∈ ops, (op.addr.toNat : ℤ) < (toInt maxSize).toInt) :
    (∀ randomflg, Along deviceMove Serves ops (some (initMemphy mp maxSize randomflg), fun _ => 0) ↔
      randomflg ≠ 0 ∨ ops = []) ∧
      (output memMove memResult ops (some (initMemphy mp maxSize 0)) =
        output memMove memResult ops (some (initMemphy mp maxSize 1)) ↔ ops = []) := by
  have hseq : (initMemphy mp maxSize 0).rdmflg = 0 := initMemphy_rdmflg mp maxSize 0
  have hrandom : ∀ randomflg : Word, randomflg ≠ 0 →
      Along deviceMove Serves ops (some (initMemphy mp maxSize randomflg), fun _ => 0) := by
    intro randomflg hflg
    apply (holding_initMemphy mp maxSize hflg).along
    rwa [initMemphy_maxsz]
  constructor
  · intro randomflg
    refine ⟨?_, ?_⟩
    · intro h
      by_contra hno
      obtain ⟨hflg, hops⟩ := not_or.mp hno
      obtain rfl := not_not.mp hflg
      obtain ⟨op, rest, rfl⟩ := List.exists_cons_of_ne_nil hops
      obtain ⟨mp', value, mp'', hmp', hexec, -⟩ := h.1
      obtain rfl := Option.some.inj hmp'
      rw [exec_of_sequential hseq] at hexec
      cases hexec
    · rintro (hflg | rfl)
      · exact hrandom randomflg hflg
      · trivial
  · constructor
    · intro h
      cases ops with
      | nil => rfl
      | cons op rest =>
        obtain ⟨mp', value, mp'', hmp', hexec, -⟩ := (hrandom 1 (by decide)).1
        obtain rfl := Option.some.inj hmp'
        rw [output, output, memResult, memResult, Option.bind_some, Option.bind_some, hexec,
          exec_of_sequential hseq] at h
        have hhead := congrArg List.head? h
        simp at hhead
    · rintro rfl
      rfl

/-- A byte is written and read back on a random access device of four bytes. -/
theorem serves_write_read :
    Along deviceMove Serves [.write 3 7, .read 3]
      (some (initMemphy ⟨[], 0, 0, 0, [], false⟩ 4 1), fun _ => 0) :=
  ((serves_iff ⟨[], 0, 0, 0, [], false⟩ 4 [.write 3 7, .read 3] (by decide)).1 1).mpr
    (.inl (by decide))

/-- The same on a sequential device fails at the write. -/
theorem not_serves_sequential :
    ¬ Along deviceMove Serves [.write 3 7, .read 3]
      (some (initMemphy ⟨[], 0, 0, 0, [], false⟩ 4 0), fun _ => 0) := by
  rintro ⟨⟨mp, value, mp', hmp, hexec, -⟩, -⟩
  obtain rfl := Option.some.inj hmp
  cases hexec

end Ossim.Mem
