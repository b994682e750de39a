import Ossim.Machine.Bits
import Ossim.Machine.Run
import Ossim.Mem.Device
import Ossim.Mem.PageFault

/-!
# Page table entries

`mm64.c` writes a page table entry in three places: `init_pte` for a page in memory or one
that is swapped out, `pte_set_fpn` for the one and `pte_set_swap` for the other. `libmem.c`
reads the entry of a page in two: `pg_getpage`, when an instruction accesses the page, and
`free_pcb_memph`, when the process ends.

Neither reader tells a page in memory from one that is swapped out. `pg_getpage` asks
`pte_get_entry`, which returns `0` for every page, so it finds no page in memory, whatever has
been written. `free_pcb_memph` reads the entry, and asks for `PAGING_PTE_PRESENT_MASK` alone,
which each writer sets, for a page that is swapped out too: it takes such a page for one in memory,
in the frame that a part of the swap offset says. So the page is taken for what its entry says
only where no update of the entry has succeeded (`toldApart_iff`). The bit that tells the two
apart is `PAGING_PTE_SWAPPED_MASK`, and the swap offset is there to be read (`last_update`).

## The model

An entry is a 64-bit word, and the masks are 32-bit words. A mask is widened where it
meets an entry, and so is its complement, which clears the upper half of the entry.
`free_pcb_memph` reads the lower half. The two setters work on an entry they allocate for the
purpose; what is modelled is what they do to it. `pg_getpage` is that of `Mem/Instruction`.
-/

namespace Ossim.Mem

open Machine

/-! ### Masks -/

/-- `PAGING_PTE_PRESENT_MASK`. -/
def pagingPtePresentMask : Word := 1#32 <<< 31

/-- `PAGING_PTE_SWAPPED_MASK`. -/
def pagingPteSwappedMask : Word := 1#32 <<< 30

/-- `PAGING_PTE_DIRTY_MASK`. -/
def pagingPteDirtyMask : Word := 1#32 <<< 28

/-- `PAGING_PTE_FPN_MASK`. -/
def pagingPteFpnMask : Word := Bits.genmask 32 12 0

/-- `PAGING_PTE_SWPTYP_MASK`. -/
def pagingPteSwptypMask : Word := Bits.genmask 32 4 0

/-- `PAGING_PTE_SWPOFF_MASK`. -/
def pagingPteSwpoffMask : Word := Bits.genmask 32 25 5

/-- `PAGING_SWP`. -/
def pagingSwp (pte : Word) : Word := Bits.getval pte pagingPteSwpoffMask 5

/-- `SETBIT`, of an entry. -/
def setbit (v : Addr) (mask : Word) : Addr := v ||| mask.setWidth 64

/-- `CLRBIT`, of an entry. -/
def clrbit (v : Addr) (mask : Word) : Addr := v &&& (~~~mask).setWidth 64

/-- `SETVAL`, of an entry. -/
def setval (v value : Addr) (mask : Word) (offst : ℕ) : Addr :=
  v &&& (~~~mask).setWidth 64 ||| value <<< offst &&& mask.setWidth 64

/-! ### Writers -/

/-- `init_pte`: the result, and the entry after. -/
def initPte (pte : Addr) (pre : Word) (fpn : Addr) (_drt swp swptyp : Word) (swpoff : Addr) :
    ℤ × Addr :=
  if pre ≠ 0 then
    if swp = 0 then
      if fpn = 0 then (-1, pte)
      else
        let pte := setbit pte pagingPtePresentMask
        let pte := clrbit pte pagingPteSwappedMask
        let pte := clrbit pte pagingPteDirtyMask
        (0, setval pte fpn pagingPteFpnMask 0)
    else
      let pte := setbit pte pagingPtePresentMask
      let pte := setbit pte pagingPteSwappedMask
      let pte := clrbit pte pagingPteDirtyMask
      let pte := setval pte (ofInt swptyp) pagingPteSwptypMask 0
      (0, setval pte swpoff pagingPteSwpoffMask 5)
  else (0, pte)

/-- `pte_set_swap`, of an entry. -/
def pteSetSwap (pte : Addr) (swptyp : Word) (swpoff : Addr) : ℤ × Addr :=
  let pte := setbit pte pagingPtePresentMask
  let pte := setbit pte pagingPteSwappedMask
  let pte := setval pte (ofInt swptyp) pagingPteSwptypMask 0
  (0, setval pte swpoff pagingPteSwpoffMask 5)

/-- `pte_set_fpn`, of an entry. -/
def pteSetFpn (pte fpn : Addr) : ℤ × Addr :=
  let pte := setbit pte pagingPtePresentMask
  let pte := clrbit pte pagingPteSwappedMask
  (0, setval pte fpn pagingPteFpnMask 0)

/-! ### The reader of `pgd` -/

/-- The devices `free_pcb_memph` puts frames back on. -/
structure Devices where
  /-- `mram`. -/
  mram : Memphy
  /-- `active_mswp`. -/
  activeMswp : Memphy

/-- The body of the loop of `free_pcb_memph`. -/
def freePage (d : Devices) (pte : Word) : Devices :=
  if pagingPagePresent pte then { d with mram := memphyPutFreefp d.mram (ofInt (pagingFpn pte)) }
  else { d with activeMswp := memphyPutFreefp d.activeMswp (ofInt (pagingSwp pte)) }

/-- `free_pcb_memph`, of the `PAGING_MAX_PGN` entries of `pgd`. -/
def freePcbMemph (pgd : List Addr) (d : Devices) : Devices :=
  pgd.foldl (fun d entry => freePage d (toInt entry)) d

/-! ### The lower half of an entry -/

variable {v value pte fpn swpoff : Addr} {mask swptyp : Word}

@[simp] theorem toInt_setbit : toInt (setbit v mask) = Bits.setbit (toInt v) mask := by
  simp [toInt, setbit, Bits.setbit]

@[simp] theorem toInt_clrbit : toInt (clrbit v mask) = Bits.clrbit (toInt v) mask := by
  simp [toInt, clrbit, Bits.clrbit]

@[simp] theorem toInt_setval (offst : ℕ) :
    toInt (setval v value mask offst) = Bits.setval (toInt v) (toInt value) mask offst := by
  simp [toInt, setval, Bits.setval]

theorem pagingFpn_eq (pte : Word) : pagingFpn pte = Bits.getval pte pagingPteFpnMask 0 := by
  rw [Bits.getval, BitVec.ushiftRight_zero]
  rfl

/-- `PAGING_PAGE_PRESENT` tests bit 31. -/
theorem pagingPagePresent_eq (pte : Word) : pagingPagePresent pte = pte.getLsbD 31 := by
  have hmask : (0x80000000 : Word) = BitVec.twoPow 32 31 := by decide
  rw [pagingPagePresent, hmask, BitVec.and_twoPow]
  cases pte.getLsbD 31 <;> decide

/-! ### Updates -/

/-- An update of an entry. -/
inductive Update where
  /-- `init_pte`, where `pre` is set. -/
  | initPte (pre : Word) (hpre : pre ≠ 0) (fpn : Addr) (drt swp swptyp : Word) (swpoff : Addr)
  /-- `pte_set_fpn`. -/
  | pteSetFpn (fpn : Addr)
  /-- `pte_set_swap`. -/
  | pteSetSwap (swptyp : Word) (swpoff : Addr)

/-- What an update says of the page. -/
inductive Kind where
  /-- It is in memory, in the frame `fpn`. -/
  | online (fpn : Addr)
  /-- It is on the swap device, at `swpoff`. -/
  | swapped (swpoff : Addr)

/-- The result of the update, and the entry after. -/
def Update.apply : Update → Addr → ℤ × Addr
  | .initPte pre _ fpn drt swp swptyp swpoff, pte => Mem.initPte pte pre fpn drt swp swptyp swpoff
  | .pteSetFpn fpn, pte => Mem.pteSetFpn pte fpn
  | .pteSetSwap swptyp swpoff, pte => Mem.pteSetSwap pte swptyp swpoff

/-- What the update says of the page, if it succeeds: `init_pte` does not for frame `0`. -/
def Update.kind : Update → Option Kind
  | .initPte _ _ fpn _ swp _ swpoff =>
    if swp = 0 then if fpn = 0 then none else some (.online fpn) else some (.swapped swpoff)
  | .pteSetFpn fpn => some (.online fpn)
  | .pteSetSwap _ swpoff => some (.swapped swpoff)

/-- `init_pte` is called for a page in memory, in frame `0`. -/
def Update.Fails : Update → Prop
  | .initPte _ _ fpn _ swp _ _ => swp = 0 ∧ fpn = 0
  | _ => False

/-- The entry after a sequence of updates. -/
def updated (us : List Update) (pte : Addr) : Addr := run (fun u pte => (u.apply pte).2) us pte

/-- What the last successful update of a sequence says of the page. -/
def lastKind (us : List Update) : Option Kind := (us.filterMap Update.kind).getLast?

theorem updated_concat (us : List Update) (u : Update) (pte : Addr) :
    updated (us ++ [u]) pte = (u.apply (updated us pte)).2 := run_concat us u pte

theorem lastKind_concat (us : List Update) (u : Update) :
    lastKind (us ++ [u]) = u.kind.or (lastKind us) := by
  rw [lastKind, List.filterMap_append, lastKind]
  cases hk : u.kind with
  | none => simp [hk]
  | some k => simp [hk]

theorem Update.kind_eq_none_iff (u : Update) : u.kind = none ↔ u.Fails := by
  cases u with
  | initPte pre hpre fpn drt swp swptyp swpoff =>
    simp only [Update.kind, Update.Fails]
    split_ifs with hswp hfpn <;> simp_all
  | pteSetFpn fpn => exact iff_of_false nofun id
  | pteSetSwap swptyp swpoff => exact iff_of_false nofun id

/-- An update that says nothing fails, and changes nothing. -/
theorem Update.apply_of_kind_none {u : Update} (hu : u.kind = none) (pte : Addr) :
    u.apply pte = (-1, pte) := by
  cases u with
  | initPte pre hpre fpn drt swp swptyp swpoff =>
    simp only [Update.kind] at hu
    split_ifs at hu with hswp hfpn
    simp only [Update.apply, Mem.initPte, if_pos hpre, if_pos hswp, if_pos hfpn]
  | pteSetFpn fpn => cases hu
  | pteSetSwap swptyp swpoff => cases hu

/-! ### What an update leaves -/

/-- What is in an entry whose last update said `k`. -/
def Holds (pte : Word) : Kind → Prop
  | .online fpn => pte.getLsbD 30 = false ∧ (pagingFpn pte).toNat = fpn.toNat % 2 ^ 13
  | .swapped swpoff => pte.getLsbD 30 = true ∧ (pagingSwp pte).toNat = swpoff.toNat % 2 ^ 21

/-- The frame number, as far as the field goes. -/
theorem pagingFpn_setval (pte : Word) (fpn : Addr) :
    (pagingFpn (Bits.setval pte (toInt fpn) pagingPteFpnMask 0)).toNat = fpn.toNat % 2 ^ 13 := by
  rw [pagingFpn_eq, pagingPteFpnMask, Bits.toNat_getval_setval (by decide) (by decide), toInt,
    BitVec.toNat_setWidth]
  exact Nat.mod_mod_of_dvd _ (by decide)

/-- The swap offset, as far as the field goes. -/
theorem pagingSwp_setval (pte : Word) (swpoff : Addr) :
    (pagingSwp (Bits.setval pte (toInt swpoff) pagingPteSwpoffMask 5)).toNat =
      swpoff.toNat % 2 ^ 21 := by
  rw [pagingSwp, pagingPteSwpoffMask, Bits.toNat_getval_setval (by decide) (by decide), toInt,
    BitVec.toNat_setWidth]
  exact Nat.mod_mod_of_dvd _ (by decide)

/-- The three fields leave the two highest bits alone. -/
theorem fields_below {i : ℕ} (hi : i = 30 ∨ i = 31) :
    pagingPteFpnMask.getLsbD i = false ∧ pagingPteSwptypMask.getLsbD i = false ∧
      pagingPteSwpoffMask.getLsbD i = false := by
  rcases hi with rfl | rfl <;> decide

/-- **What an update leaves**: the bit `PAGING_PTE_PRESENT_MASK` whatever it says, and what it
says. -/
theorem Update.holds {u : Update} {k : Kind} (hu : u.kind = some k) (pte : Addr) :
    (toInt (u.apply pte).2).getLsbD 31 = true ∧ Holds (toInt (u.apply pte).2) k := by
  obtain ⟨hf30, ht30, ho30⟩ := fields_below (.inl rfl)
  obtain ⟨hf31, ht31, ho31⟩ := fields_below (.inr rfl)
  have hp31 : pagingPtePresentMask.getLsbD 31 = true := by decide
  have hs30 : pagingPteSwappedMask.getLsbD 30 = true := by decide
  have hs31 : pagingPteSwappedMask.getLsbD 31 = false := by decide
  have hd30 : pagingPteDirtyMask.getLsbD 30 = false := by decide
  have hd31 : pagingPteDirtyMask.getLsbD 31 = false := by decide
  cases u with
  | initPte pre hpre fpn drt swp swptyp swpoff =>
    simp only [Update.kind] at hu
    simp only [Update.apply, Mem.initPte, if_pos hpre]
    split_ifs at hu ⊢ with hswp hfpn
    · obtain rfl := Option.some.inj hu
      simp only [Holds, toInt_setval, toInt_clrbit, toInt_setbit, pagingFpn_setval,
        Bits.getLsbD_setval_of_not hf30, Bits.getLsbD_setval_of_not hf31, Bits.getLsbD_clrbit,
        Bits.getLsbD_setbit, hp31, hs30, hs31, hd31, Bool.or_true, Bool.not_true, Bool.not_false,
        Bool.and_true, Bool.and_false, Bool.false_and, and_self]
    · obtain rfl := Option.some.inj hu
      simp only [Holds, toInt_setval, toInt_clrbit, toInt_setbit, pagingSwp_setval,
        Bits.getLsbD_setval_of_not ht30, Bits.getLsbD_setval_of_not ht31,
        Bits.getLsbD_setval_of_not ho30, Bits.getLsbD_setval_of_not ho31, Bits.getLsbD_clrbit,
        Bits.getLsbD_setbit, hp31, hs30, hd30, hd31, Bool.or_true, Bool.true_or, Bool.not_false,
        Bool.and_true, and_self]
  | pteSetFpn fpn =>
    obtain rfl := Option.some.inj hu
    simp only [Update.apply, Mem.pteSetFpn, Holds, toInt_setval, toInt_clrbit, toInt_setbit,
      pagingFpn_setval, Bits.getLsbD_setval_of_not hf30, Bits.getLsbD_setval_of_not hf31,
      Bits.getLsbD_clrbit, Bits.getLsbD_setbit, hp31, hs30, hs31, Bool.or_true, Bool.not_true,
      Bool.not_false, Bool.and_true, Bool.and_false, and_self]
  | pteSetSwap swptyp swpoff =>
    obtain rfl := Option.some.inj hu
    simp only [Update.apply, Mem.pteSetSwap, Holds, toInt_setval, toInt_setbit, pagingSwp_setval,
      Bits.getLsbD_setval_of_not ht30, Bits.getLsbD_setval_of_not ht31,
      Bits.getLsbD_setval_of_not ho30, Bits.getLsbD_setval_of_not ho31, Bits.getLsbD_setbit, hp31,
      hs30, Bool.or_true, Bool.true_or, and_self]

/-- **What a sequence of updates leaves** is what its last successful one does: an earlier one
leaves nothing that is read. -/
theorem last_update {us : List Update} {k : Kind} (hk : lastKind us = some k) (pte : Addr) :
    pagingPagePresent (toInt (updated us pte)) = true ∧ Holds (toInt (updated us pte)) k := by
  induction us using List.reverseRecOn with
  | nil => cases hk
  | append_singleton us u ih =>
    rw [updated_concat]
    rw [lastKind_concat] at hk
    cases hu : u.kind with
    | none =>
      rw [hu, Option.none_or] at hk
      rw [u.apply_of_kind_none hu]
      exact ih hk
    | some k' =>
      rw [hu, Option.some_or] at hk
      rw [pagingPagePresent_eq]
      exact u.holds (hu.trans hk) _

/-! ### What the readers make of it -/

/-- Both readers take page `pgn`, whose entry is `pte`, for one in memory: `pg_getpage` returns at
once, with the frame the entry says, and `free_pcb_memph` puts that frame back. -/
def ReadsOnline (pgn pte : Word) : Prop :=
  (∀ s, pgGetpage pgn s = some (some (pagingFpn pte), s)) ∧
    ∀ d, freePage d pte = { d with mram := memphyPutFreefp d.mram (ofInt (pagingFpn pte)) }

/-- Both readers take it for one on the swap device, at `swpoff` if the field has bits enough:
`pg_getpage` does not return a frame at once, and `free_pcb_memph` puts back the frame of the swap
device. -/
def ReadsSwapped (pgn pte : Word) (swpoff : Addr) : Prop :=
  (∀ s fpn, pgGetpage pgn s ≠ some (some fpn, s)) ∧
    (∀ d, freePage d pte =
      { d with activeMswp := memphyPutFreefp d.activeMswp (ofInt (pagingSwp pte)) }) ∧
    (swpoff.toNat < 2 ^ 21 → (pagingSwp pte).toNat = swpoff.toNat)

/-- The readers take the page for what the last update of its entry said. -/
def ToldApart (pgn pte : Word) : Option Kind → Prop
  | none => True
  | some (.online _) => ReadsOnline pgn pte
  | some (.swapped swpoff) => ReadsSwapped pgn pte swpoff

/-- `pg_getpage` finds no page in memory: it never returns a frame at once. -/
theorem pgGetpage_ne_self (pgn fpn : Word) (s : Store) : pgGetpage pgn s ≠ some (some fpn, s) :=
  fun h => absurd (length_freeFpList_pgGetpage h) (Nat.succ_ne_self _).symm

/-- A store with nothing in it. -/
def emptyStore : Store := ⟨⟨some [], fun _ => ⟨0, 0⟩, some []⟩, []⟩

theorem not_readsOnline (pgn pte : Word) : ¬ ReadsOnline pgn pte :=
  fun h => pgGetpage_ne_self pgn (pagingFpn pte) emptyStore (h.1 emptyStore)

/-- A device with no byte and no frame. -/
def emptyMemphy : Memphy := ⟨[], 0, 0, 0, ⟨[], true⟩⟩

/-- A present page is freed as one in memory. -/
theorem not_readsSwapped_of_present {pte : Word} (h : pagingPagePresent pte = true) (pgn : Word)
    (swpoff : Addr) : ¬ ReadsSwapped pgn pte swpoff := by
  rintro ⟨-, hfree, -⟩
  have hwrong := congrArg (fun d => d.mram.freeFpList.fpns) (hfree ⟨emptyMemphy, emptyMemphy⟩)
  rw [freePage, if_pos h] at hwrong
  cases hwrong

theorem lastKind_eq_none_iff (us : List Update) : lastKind us = none ↔ ∀ u ∈ us, u.Fails := by
  simp only [lastKind, List.getLast?_eq_none_iff, List.filterMap_eq_nil_iff, Update.kind_eq_none_iff]

/-- **The readers tell the pages apart just when no update succeeds.** -/
theorem toldApart_iff (pgn : Word) (pte : Addr) (us : List Update) :
    ToldApart pgn (toInt (updated us pte)) (lastKind us) ↔ ∀ u ∈ us, u.Fails := by
  rw [← lastKind_eq_none_iff]
  cases hk : lastKind us with
  | none => exact iff_of_true trivial rfl
  | some k =>
    obtain ⟨hpresent, -⟩ := last_update hk pte
    cases k with
    | online fpn => exact iff_of_false (not_readsOnline pgn _) nofun
    | swapped swpoff => exact iff_of_false (not_readsSwapped_of_present hpresent pgn swpoff) nofun

/-- A page swapped out to offset `32` is freed as frame `1024` of the memory, and a page put in
frame `5` is not found there. -/
theorem not_toldApart_swap :
    (¬ ToldApart 0 (toInt (updated [.pteSetSwap 0 32] 0)) (lastKind [.pteSetSwap 0 32]) ∧
      pagingFpn (toInt (updated [.pteSetSwap 0 32] 0)) = 1024) ∧
      ¬ ToldApart 0 (toInt (updated [.pteSetFpn 5] 0)) (lastKind [.pteSetFpn 5]) :=
  ⟨⟨not_readsSwapped_of_present (by decide) 0 32, by decide⟩, not_readsOnline 0 _⟩

end Ossim.Mem
