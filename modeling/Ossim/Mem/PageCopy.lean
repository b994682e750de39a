import Ossim.Mem.Memmap

/-!
# Copying pages between devices

`__swap_cp_page` copies a frame of one device to a frame of another or of the same one, a
byte at a time: `MEMPHY_read` of one address, `MEMPHY_write` of the other. Two frames of a
device are apart or the same, so no byte is written before it is read, and the frame
copied to is what the frame copied from was (`swapCpPage_copies`). Hence a page comes back
from the swap device as it was when it went there, whatever has been done to the memory
meanwhile (`swapping_preserves`).

The devices are random access ones: a sequential device refuses every read, and what
`__swap_cp_page` writes then is a byte that no one has stored.
-/

namespace Ossim.Mem

/-- The byte at place `c` of a frame. -/
def Memphy.cell (mp : Memphy) (fpn : Addr) (c : ℕ) : Option Byte :=
  mp.storage[fpn.toNat * 256 + c]?

/-- The frame is one of a random access device: as many bytes are there as `maxsz` says, which
is an `int`, and the frame is below `maxsz / PAGING_PAGESZ`. -/
structure HasFrame (mp : Memphy) (fpn : Addr) : Prop where
  /-- The device is random access. -/
  random : mp.rdmflg ≠ 0
  /-- `storage` is a block of `maxsz` bytes. -/
  maxsz_le : mp.maxsz ≤ mp.storage.length
  /-- `maxsz` is an `int`. -/
  maxsz_lt : mp.maxsz < ((2 ^ 31 : ℕ) : ℤ)
  /-- The frame is in range. -/
  fpn_lt : (fpn.toNat : ℤ) < mp.maxsz.tdiv pagingPagesz

/-- The page at frame `srcfpn` of `src` has been copied to frame `dstfpn` of `dst`. -/
structure PageCopied (src : ℕ) (srcfpn : Addr) (dst : ℕ) (dstfpn : Addr)
    (memphys memphys' : ℕ → Memphy) : Prop where
  /-- Each byte of the one frame is what that of the other was. -/
  copied : ∀ c < 256, ∃ v, (memphys src).cell srcfpn c = some v ∧
    (memphys' dst).cell dstfpn c = some v
  /-- No byte outside the frame changes. -/
  outside : ∀ a, a / 256 ≠ dstfpn.toNat →
    (memphys' dst).storage[a]? = (memphys dst).storage[a]?
  /-- There are as many bytes as there were. -/
  length : (memphys' dst).storage.length = (memphys dst).storage.length
  /-- Nothing else of the device changes. -/
  rest : memphys' dst = { memphys dst with storage := (memphys' dst).storage }
  /-- No other device changes. -/
  others : ∀ d, d ≠ dst → memphys' d = memphys d

/-! ### Frames -/

variable {mp : Memphy} {fpn : Addr} {c : ℕ}

theorem HasFrame.bounds (h : HasFrame mp fpn) :
    fpn.toNat * 256 + 256 ≤ mp.storage.length ∧ fpn.toNat < 2 ^ 23 := by
  have hle := h.maxsz_le
  have hlt := h.maxsz_lt
  have hfpn := h.fpn_lt
  have hnonneg : 0 ≤ mp.maxsz := by
    by_contra hneg
    have hnone := tdiv_pagingPagesz_nonpos (Int.not_le.mp hneg)
    omega
  rw [Int.tdiv_eq_ediv_of_nonneg hnonneg, pagingPagesz] at hfpn
  omega

/-- The address of a byte of the frame does not overflow. -/
theorem HasFrame.toNat_addr (h : HasFrame mp fpn) (hc : c < 256) :
    (fpn * 256 + BitVec.ofNat 64 c).toNat = fpn.toNat * 256 + c := by
  have hfpn := h.bounds.2
  rw [BitVec.toNat_add, BitVec.toNat_mul, BitVec.toNat_ofNat]
  show (fpn.toNat * 256 % _ + _) % _ = _
  omega

/-- A device that `init_memphy` made has the frames below `maxsz / PAGING_PAGESZ`. -/
theorem hasFrame_initMemphy (mp : Memphy) {maxSize : Addr} {randomflg : Word}
    (hrandom : randomflg ≠ 0)
    (hfpn : (fpn.toNat : ℤ) < (toInt maxSize).toInt.tdiv pagingPagesz) :
    HasFrame (initMemphy mp maxSize randomflg) fpn where
  random := by rw [initMemphy_rdmflg, if_pos hrandom]; decide
  maxsz_le := by
    rw [initMemphy_maxsz, initMemphy_storage, List.length_replicate]
    exact toInt_toInt_le maxSize
  maxsz_lt := by
    have hmax : (toInt maxSize).toInt < 2 ^ 31 := BitVec.toInt_lt
    rw [initMemphy_maxsz]
    omega
  fpn_lt := by rw [initMemphy_maxsz]; exact hfpn

/-! ### The loop -/

variable {src dst k : ℕ} {srcfpn dstfpn : Addr} {memphys cur : ℕ → Memphy}

/-- The first `k` bytes have been copied, and nothing else has been done. -/
structure CopiedUpTo (src : ℕ) (srcfpn : Addr) (dst : ℕ) (dstfpn : Addr) (k : ℕ)
    (memphys cur : ℕ → Memphy) : Prop where
  /-- The first `k` bytes of the frame are those of the other frame at the start. -/
  storage : ∀ a, (cur dst).storage[a]? =
    if dstfpn.toNat * 256 ≤ a ∧ a < dstfpn.toNat * 256 + k then
      (memphys src).cell srcfpn (a - dstfpn.toNat * 256)
    else (memphys dst).storage[a]?
  /-- There are as many bytes as there were. -/
  length : (cur dst).storage.length = (memphys dst).storage.length
  /-- Nothing else of the device changes. -/
  rest : cur dst = { memphys dst with storage := (cur dst).storage }
  /-- No other device changes. -/
  others : ∀ d, d ≠ dst → cur d = memphys d

theorem copiedUpTo_zero (src : ℕ) (srcfpn : Addr) (dst : ℕ) (dstfpn : Addr)
    (memphys : ℕ → Memphy) : CopiedUpTo src srcfpn dst dstfpn 0 memphys memphys where
  storage := fun a => (if_neg (by omega)).symm
  length := rfl
  rest := rfl
  others := fun _ _ => rfl

/-- The devices keep their frames. -/
theorem CopiedUpTo.hasFrame (h : CopiedUpTo src srcfpn dst dstfpn k memphys cur) {d : ℕ}
    (hd : HasFrame (memphys d) fpn) : HasFrame (cur d) fpn := by
  by_cases hdst : d = dst
  · subst hdst
    rw [h.rest]
    exact ⟨hd.random, by rw [h.length]; exact hd.maxsz_le, hd.maxsz_lt, hd.fpn_lt⟩
  · rw [h.others d hdst]
    exact hd

/-- The byte to be copied next is as it was at the start: it is not among those written, be the
other frame on another device, another frame or the same one. -/
theorem CopiedUpTo.cell_eq (h : CopiedUpTo src srcfpn dst dstfpn c memphys cur) (hc : c < 256) :
    (cur src).cell srcfpn c = (memphys src).cell srcfpn c := by
  by_cases hsrc : src = dst
  · subst hsrc
    rw [Memphy.cell, h.storage, if_neg (by omega), Memphy.cell]
  · rw [h.others src hsrc]

/-- A byte of a frame is read. -/
theorem memphyReadAt_cell (h : HasFrame (memphys src) srcfpn) (hc : c < 256) :
    ∃ v, (memphys src).cell srcfpn c = some v ∧
      memphyReadAt memphys (some (some src)) (srcfpn * 256 + BitVec.ofNat 64 c) =
        some (0, some v, memphys) := by
  have hlen := h.bounds.1
  have hlt : srcfpn.toNat * 256 + c < (memphys src).storage.length := by omega
  refine ⟨_, List.getElem?_eq_getElem hlt, ?_⟩
  simp only [memphyReadAt, memphyRead, if_pos h.random, h.toNat_addr hc,
    List.getElem?_eq_getElem hlt, Option.map_some, Function.update_eq_self]

/-- A byte of a frame is written. -/
theorem memphyWriteAt_cell (h : HasFrame (memphys dst) dstfpn) (hc : c < 256) (v : Byte) :
    memphyWriteAt memphys (some (some dst)) (dstfpn * 256 + BitVec.ofNat 64 c) v =
      some (0, Function.update memphys dst { memphys dst with
        storage := (memphys dst).storage.set (dstfpn.toNat * 256 + c) v }) := by
  have hlen := h.bounds.1
  have hlt : dstfpn.toNat * 256 + c < (memphys dst).storage.length := by omega
  simp only [memphyWriteAt, memphyWrite, if_pos h.random, setByte, h.toNat_addr hc, if_pos hlt,
    Option.map_some]

/-- The write of the byte that was read at the start makes one byte more. -/
theorem CopiedUpTo.write (h : CopiedUpTo src srcfpn dst dstfpn c memphys cur) (hc : c < 256)
    (hdst : HasFrame (memphys dst) dstfpn) {v : Byte}
    (hv : (memphys src).cell srcfpn c = some v) :
    CopiedUpTo src srcfpn dst dstfpn (c + 1) memphys
      (Function.update cur dst { cur dst with
        storage := (cur dst).storage.set (dstfpn.toNat * 256 + c) v }) where
  storage := by
    intro a
    have hlen := hdst.bounds.1
    rw [Function.update_self, List.getElem?_set]
    by_cases ha : dstfpn.toNat * 256 + c = a
    · subst ha
      rw [if_pos rfl, if_pos (by rw [h.length]; omega), if_pos (by omega), Nat.add_sub_cancel_left,
        hv]
    · rw [if_neg ha, h.storage]
      exact if_congr (by omega) rfl rfl
  length := by rw [Function.update_self, List.length_set, h.length]
  rest := by rw [Function.update_self, h.rest]
  others := by
    intro d hd
    rw [Function.update_of_ne hd, h.others d hd]

/-- The step: one more byte is copied. -/
theorem CopiedUpTo.step (h : CopiedUpTo src srcfpn dst dstfpn c memphys cur) (hc : c < 256)
    (hsrc : HasFrame (memphys src) srcfpn) (hdst : HasFrame (memphys dst) dstfpn) (k : ℕ) :
    ∃ cur', CopiedUpTo src srcfpn dst dstfpn (c + 1) memphys cur' ∧
      swapCpFrom (some (some src)) srcfpn (some (some dst)) dstfpn (k + 1) c cur =
        swapCpFrom (some (some src)) srcfpn (some (some dst)) dstfpn k (c + 1) cur' := by
  obtain ⟨v, hv, hread⟩ := memphyReadAt_cell (h.hasFrame hsrc) hc
  have hwrite := memphyWriteAt_cell (h.hasFrame hdst) hc v
  rw [h.cell_eq hc] at hv
  refine ⟨_, h.write hc hdst hv, ?_⟩
  rw [swapCpFrom]
  simp only [hread, hwrite, Option.bind_eq_bind, Option.bind_some]

/-- The run: the rest of the page is copied. -/
theorem CopiedUpTo.run (h : CopiedUpTo src srcfpn dst dstfpn c memphys cur) (hk : c + k = 256)
    (hsrc : HasFrame (memphys src) srcfpn) (hdst : HasFrame (memphys dst) dstfpn) :
    ∃ memphys', swapCpFrom (some (some src)) srcfpn (some (some dst)) dstfpn k c cur =
        some memphys' ∧
      CopiedUpTo src srcfpn dst dstfpn 256 memphys memphys' := by
  induction k generalizing c cur with
  | zero =>
    obtain rfl : c = 256 := hk
    exact ⟨cur, rfl, h⟩
  | succ k ih =>
    obtain ⟨cur', hcur', heq⟩ := h.step (by omega) hsrc hdst k
    rw [heq]
    exact ih hcur' (by omega)

theorem CopiedUpTo.pageCopied (h : CopiedUpTo src srcfpn dst dstfpn 256 memphys cur)
    (hsrc : HasFrame (memphys src) srcfpn) : PageCopied src srcfpn dst dstfpn memphys cur where
  copied := by
    intro c hc
    obtain ⟨v, hv, -⟩ := memphyReadAt_cell hsrc hc
    refine ⟨v, hv, ?_⟩
    rw [Memphy.cell, h.storage, if_pos (by omega), Nat.add_sub_cancel_left, hv]
  outside := by
    intro a ha
    rw [h.storage, if_neg (by omega)]
  length := h.length
  rest := h.rest
  others := h.others

/-! ### Pages -/

/-- **`__swap_cp_page` copies the page**, and changes nothing but the frame copied to. -/
theorem swapCpPage_copies (hsrc : HasFrame (memphys src) srcfpn)
    (hdst : HasFrame (memphys dst) dstfpn) :
    ∃ memphys', swapCpPage memphys (some (some src)) srcfpn (some (some dst)) dstfpn =
        some memphys' ∧
      PageCopied src srcfpn dst dstfpn memphys memphys' := by
  obtain ⟨memphys', hrun, hcopied⟩ :=
    (copiedUpTo_zero src srcfpn dst dstfpn memphys).run (k := 256) (Nat.zero_add _) hsrc hdst
  exact ⟨memphys', hrun, hcopied.pageCopied hsrc⟩

/-- What a frame is depends on the length of `storage` and not on what is in it. -/
theorem HasFrame.overwrite (h : HasFrame mp fpn) {storage : List Byte}
    (hlen : storage.length = mp.storage.length) :
    HasFrame { mp with storage := storage } fpn :=
  ⟨h.random, by rw [hlen]; exact h.maxsz_le, h.maxsz_lt, h.fpn_lt⟩

/-- **A page comes back from the swap device as it went**, into any frame, whatever is in the
memory by then. -/
theorem swapped_page_restored {ram mswp : ℕ} {vicfpn swpfpn : Addr} (hne : ram ≠ mswp)
    (hvic : HasFrame (memphys ram) vicfpn) (hswp : HasFrame (memphys mswp) swpfpn) :
    ∃ krnl, mmSwapPage ⟨memphys, some (some ram), some (some mswp)⟩ vicfpn swpfpn = some krnl ∧
      ∀ storage, storage.length = (memphys ram).storage.length →
        ∀ fpn, HasFrame (memphys ram) fpn →
          ∃ memphys',
            swapCpPage (Function.update krnl.memphys ram
                { krnl.memphys ram with storage := storage })
              (some (some mswp)) swpfpn (some (some ram)) fpn = some memphys' ∧
            ∀ c < 256, ∃ v, (memphys ram).cell vicfpn c = some v ∧
              (memphys' ram).cell fpn c = some v := by
  obtain ⟨memphys₁, hout, hcopied₁⟩ := swapCpPage_copies hvic hswp
  refine ⟨⟨memphys₁, some (some ram), some (some mswp)⟩, by rw [mmSwapPage, hout]; rfl, ?_⟩
  intro storage hlen fpn hfpn
  have hram : memphys₁ ram = memphys ram := hcopied₁.others ram hne
  have hmswp : HasFrame (memphys₁ mswp) swpfpn := by
    rw [hcopied₁.rest]
    exact hswp.overwrite hcopied₁.length
  simp only [hram]
  obtain ⟨memphys₂, hback, hcopied₂⟩ := @swapCpPage_copies mswp ram swpfpn fpn
    (Function.update memphys₁ ram { memphys ram with storage := storage })
    (by rw [Function.update_of_ne hne.symm]; exact hmswp)
    (by rw [Function.update_self]; exact hfpn.overwrite hlen)
  refine ⟨memphys₂, hback, ?_⟩
  intro c hc
  obtain ⟨v, hv, hout⟩ := hcopied₁.copied c hc
  obtain ⟨v', hv', hback⟩ := hcopied₂.copied c hc
  rw [Function.update_of_ne hne.symm, hout] at hv'
  obtain rfl := Option.some.inj hv'
  exact ⟨v, hv, hback⟩

/-- **Swapping preserves pages**: `__swap_cp_page` copies a page of one device, or of the same, and
changes nothing else; so a page that `__mm_swap_page` copies out is restored by copying it
back. -/
theorem swapping_preserves (hsrc : HasFrame (memphys src) srcfpn)
    (hdst : HasFrame (memphys dst) dstfpn) :
    (∃ memphys', swapCpPage memphys (some (some src)) srcfpn (some (some dst)) dstfpn =
        some memphys' ∧
      PageCopied src srcfpn dst dstfpn memphys memphys') ∧
      (src ≠ dst → ∃ krnl,
        mmSwapPage ⟨memphys, some (some src), some (some dst)⟩ srcfpn dstfpn = some krnl ∧
        ∀ storage, storage.length = (memphys src).storage.length →
          ∀ fpn, HasFrame (memphys src) fpn →
            ∃ memphys',
              swapCpPage (Function.update krnl.memphys src
                  { krnl.memphys src with storage := storage })
                (some (some dst)) dstfpn (some (some src)) fpn = some memphys' ∧
              ∀ c < 256, ∃ v, (memphys src).cell srcfpn c = some v ∧
                (memphys' src).cell fpn c = some v) :=
  ⟨swapCpPage_copies hsrc hdst, fun hne => swapped_page_restored hne hsrc hdst⟩

/-- Two devices of two pages: page `1` of the first is copied to page `0` of the second. -/
theorem swapping_preserves_two :
    ∃ memphys', swapCpPage (fun _ => initMemphy ⟨[], 0, 0, 0, ⟨[], false⟩⟩ 512 1)
        (some (some 0)) 1 (some (some 1)) 0 = some memphys' ∧
      PageCopied 0 1 1 0 (fun _ => initMemphy ⟨[], 0, 0, 0, ⟨[], false⟩⟩ 512 1) memphys' := by
  have hfirst : HasFrame (initMemphy ⟨[], 0, 0, 0, ⟨[], false⟩⟩ 512 1) 1 :=
    hasFrame_initMemphy _ (by decide) (by decide)
  have hsecond : HasFrame (initMemphy ⟨[], 0, 0, 0, ⟨[], false⟩⟩ 512 1) 0 :=
    hasFrame_initMemphy _ (by decide) (by decide)
  exact (@swapping_preserves 0 1 1 0 (fun _ => initMemphy ⟨[], 0, 0, 0, ⟨[], false⟩⟩ 512 1)
    hfirst hsecond).1

end Ossim.Mem
