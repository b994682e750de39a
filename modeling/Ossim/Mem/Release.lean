import Ossim.Mem.PageTable
import Mathlib.Data.List.Nodup

/-!
# Giving the frames of a process back

`free_pcb_memph` goes through the page table of a process that ends and puts a frame back
for every entry. An entry that is present gives a frame of the memory, and any other one a
frame of the swap device. A page that was never mapped has an entry that is not present, so
that frame `0` goes on the swap list for it; and a page that is swapped out has an entry that
is present, so that a part of its swap offset goes on the list of the memory.

What is put back are the frames of the process just when every page is in memory, in a frame
whose number fits in the field for it (`released_iff`). A page table has more entries than
there are such frames, so no process gives back what it has (`not_released`).
-/

namespace Ossim.Mem

open Machine

/-- `PAGING_MAX_PGN`, the number of entries of a page table. -/
def pagingMaxPgn : ℕ := (2 ^ 22 + 256 - 1) / 256

/-- A page of a process. -/
inductive Page where
  /-- It was never mapped. -/
  | unmapped
  /-- It is in memory: `pte_set_fpn` stored its frame in the entry `pte`. -/
  | resident (pte fpn : Addr)
  /-- It is swapped out: `pte_set_swap` stored its place in the entry `pte`. -/
  | swapped (pte : Addr) (swptyp : Word) (swpoff : Addr)

namespace Page

/-- The entry of the page in the page table. -/
def entry : Page → Addr
  | unmapped => 0
  | resident pte fpn => (pteSetFpn pte fpn).2
  | swapped pte swptyp swpoff => (pteSetSwap pte swptyp swpoff).2

/-- The frame of the memory it is in. -/
def ramFrame : Page → Option Addr
  | resident _ fpn => some fpn
  | unmapped | swapped .. => none

/-- The frame of the swap device it is in. -/
def swapFrame : Page → Option Addr
  | swapped _ _ swpoff => some swpoff
  | unmapped | resident .. => none

/-- It is in memory, in a frame whose number the entry has bits for. -/
def Fits (p : Page) : Prop := ∃ fpn, p.ramFrame = some fpn ∧ fpn.toNat < 2 ^ 13

end Page

/-- No frame is used by two pages, and none of them is free. -/
structure Unshared (pages : List Page) (d : Devices) : Prop where
  /-- Of the memory. -/
  ram : (pages.filterMap Page.ramFrame ++ d.mram.freeFpList.fpns).Nodup
  /-- Of the swap device. -/
  swap : (pages.filterMap Page.swapFrame ++ d.activeMswp.freeFpList.fpns).Nodup

/-- The free frames afterwards are those before and the frames of the pages, each once. -/
structure Released (pages : List Page) (d d' : Devices) : Prop where
  /-- Of the memory. -/
  ram : d'.mram.freeFpList.fpns.Perm (pages.filterMap Page.ramFrame ++ d.mram.freeFpList.fpns)
  /-- Of the swap device. -/
  swap : d'.activeMswp.freeFpList.fpns.Perm
    (pages.filterMap Page.swapFrame ++ d.activeMswp.freeFpList.fpns)
  /-- None is twice on the list of the memory. -/
  ram_nodup : d'.mram.freeFpList.fpns.Nodup
  /-- None is twice on the list of the swap device. -/
  swap_nodup : d'.activeMswp.freeFpList.fpns.Nodup

/-! ### What the loop puts back -/

/-- An entry as `free_pcb_memph` reads it is present. -/
def entryPresent (e : Addr) : Bool := pagingPagePresent (toInt e)

/-- A loop that puts something in front for some of the entries. -/
theorem foldl_put (fpns : Devices → List Addr) {step : Devices → Addr → Devices}
    {p : Addr → Bool} {frame : Addr → Addr}
    (h : ∀ d e, fpns (step d e) = if p e then frame e :: fpns d else fpns d) (pgd : List Addr)
    (d : Devices) :
    fpns (pgd.foldl step d) = ((pgd.filter p).map frame).reverse ++ fpns d := by
  induction pgd generalizing d with
  | nil => rfl
  | cons e pgd ih =>
    rw [List.foldl_cons, ih, h, List.filter_cons]
    cases p e with
    | true => simp
    | false => simp

/-- The memory gets a frame for the entries of the table that are present. -/
theorem mram_freePcbMemph (pgd : List Addr) (d : Devices) :
    (freePcbMemph pgd d).mram.freeFpList.fpns =
      ((pgd.filter entryPresent).map fun e => ofInt (pagingFpn (toInt e))).reverse ++
        d.mram.freeFpList.fpns := by
  refine foldl_put (fun d => d.mram.freeFpList.fpns) (fun d e => ?_) pgd d
  cases he : pagingPagePresent (toInt e) with
  | true => simp [freePage, entryPresent, he, memphyPutFreefp]
  | false => simp [freePage, entryPresent, he]

/-- … and the swap device for the others. -/
theorem activeMswp_freePcbMemph (pgd : List Addr) (d : Devices) :
    (freePcbMemph pgd d).activeMswp.freeFpList.fpns =
      ((pgd.filter fun e => !entryPresent e).map fun e => ofInt (pagingSwp (toInt e))).reverse ++
        d.activeMswp.freeFpList.fpns := by
  refine foldl_put (fun d => d.activeMswp.freeFpList.fpns) (fun d e => ?_) pgd d
  cases he : pagingPagePresent (toInt e) with
  | true => simp [freePage, entryPresent, he]
  | false => simp [freePage, entryPresent, he, memphyPutFreefp]

/-! ### What the entries say -/

/-- The entry is present if the page has a frame, wherever the frame is. -/
theorem entryPresent_entry (p : Page) :
    entryPresent p.entry = (p.ramFrame.isSome || p.swapFrame.isSome) := by
  rw [entryPresent, pagingPagePresent_eq]
  cases p with
  | unmapped => rfl
  | resident pte fpn => exact (Update.holds (u := .pteSetFpn fpn) rfl pte).1
  | swapped pte swptyp swpoff => exact (Update.holds (u := .pteSetSwap swptyp swpoff) rfl pte).1

/-- The frame number of a page in memory is read back as far as the field goes. -/
theorem toNat_pagingFpn_entry {p : Page} {fpn : Addr} (h : p.ramFrame = some fpn) :
    (ofInt (pagingFpn (toInt p.entry))).toNat = fpn.toNat % 2 ^ 13 := by
  cases p with
  | resident pte fpn =>
    obtain rfl := Option.some.inj h
    have hval := (Update.holds (u := .pteSetFpn fpn) rfl pte).2.2
    rw [Page.entry, toNat_ofInt_of_lt]
    · exact hval
    · exact hval.trans_lt (by omega)
  | unmapped | swapped => cases h

/-- A frame number that is read from an entry fits in the field. -/
theorem toNat_pagingFpn_lt (pte : Word) : (ofInt (pagingFpn pte)).toNat < 2 ^ 13 := by
  have hlt : (pagingFpn pte).toNat < 2 ^ 13 := by
    rw [pagingFpn_eq, pagingPteFpnMask, Bits.toNat_getval (by decide) (by decide)]
    exact Nat.mod_lt _ (by decide)
  rw [toNat_ofInt_of_lt (by omega)]
  exact hlt

/-- As many entries are present as pages have a frame. -/
theorem length_filter_entryPresent (pages : List Page) :
    ((pages.map Page.entry).filter entryPresent).length =
      (pages.filterMap Page.ramFrame).length + (pages.filterMap Page.swapFrame).length := by
  induction pages with
  | nil => rfl
  | cons p pages ih =>
    rw [List.map_cons, List.filter_cons, entryPresent_entry, List.filterMap_cons,
      List.filterMap_cons]
    cases p with
    | unmapped => exact ih
    | resident pte fpn => simpa [Page.ramFrame, Page.swapFrame] using by omega
    | swapped pte swptyp swpoff => simpa [Page.ramFrame, Page.swapFrame] using by omega

/-- Where every page is in memory, in a frame that fits, the frames put back are theirs. -/
theorem frames_of_fits {pages : List Page} (h : ∀ p ∈ pages, p.Fits) :
    ((pages.map Page.entry).filter entryPresent).map (fun e => ofInt (pagingFpn (toInt e))) =
        pages.filterMap Page.ramFrame ∧
      (pages.map Page.entry).filter (fun e => !entryPresent e) = [] ∧
      pages.filterMap Page.swapFrame = [] := by
  induction pages with
  | nil => exact ⟨rfl, rfl, rfl⟩
  | cons p pages ih =>
    obtain ⟨hram, hnone, hswap⟩ := ih fun q hq => h q (List.mem_cons_of_mem _ hq)
    obtain ⟨fpn, hfpn, hlt⟩ := h p List.mem_cons_self
    have hpresent : entryPresent p.entry = true := by rw [entryPresent_entry, hfpn]; rfl
    have hread : ofInt (pagingFpn (toInt p.entry)) = fpn :=
      BitVec.eq_of_toNat_eq (by rw [toNat_pagingFpn_entry hfpn, Nat.mod_eq_of_lt hlt])
    have hnoswap : p.swapFrame = none := by
      cases p with
      | resident => rfl
      | unmapped | swapped => cases hfpn
    refine ⟨?_, ?_, ?_⟩
    · rw [List.map_cons, List.filter_cons, if_pos hpresent, List.map_cons, hread, hram,
        List.filterMap_cons, hfpn]
    · rw [List.map_cons, List.filter_cons, hpresent, hnone]
      rfl
    · rw [List.filterMap_cons, hnoswap, hswap]

/-! ### What is given back -/

variable {pages : List Page} {d : Devices}

/-- A process gives back what it has only if every page is in memory, in a frame that fits. -/
theorem Released.fits (h : Released pages d (freePcbMemph (pages.map Page.entry) d)) :
    ∀ p ∈ pages, p.Fits := by
  have hram := h.ram
  have hswap := h.swap
  rw [mram_freePcbMemph, List.perm_append_right_iff] at hram
  rw [activeMswp_freePcbMemph, List.perm_append_right_iff] at hswap
  have hramlen := hram.length_eq
  have hswaplen := hswap.length_eq
  rw [List.length_reverse, List.length_map, length_filter_entryPresent] at hramlen
  rw [List.length_reverse, List.length_map] at hswaplen
  -- no page is swapped out, and so none is unmapped either
  have hnoswap : pages.filterMap Page.swapFrame = [] := List.length_eq_zero_iff.mp (by omega)
  have hmapped : (pages.map Page.entry).filter (fun e => !entryPresent e) = [] :=
    List.length_eq_zero_iff.mp (by rw [hswaplen, hnoswap]; rfl)
  intro p hp
  have hpresent : entryPresent p.entry = true := by
    simpa using List.filter_eq_nil_iff.mp hmapped p.entry (List.mem_map_of_mem hp)
  rw [entryPresent_entry, List.filterMap_eq_nil_iff.mp hnoswap p hp] at hpresent
  obtain ⟨fpn, hfpn⟩ := Option.isSome_iff_exists.mp (by simpa using hpresent)
  have hmem : fpn ∈ pages.filterMap Page.ramFrame := List.mem_filterMap.mpr ⟨p, hp, hfpn⟩
  rw [← hram.mem_iff, List.mem_reverse] at hmem
  obtain ⟨e, -, rfl⟩ := List.mem_map.mp hmem
  exact ⟨_, hfpn, toNat_pagingFpn_lt _⟩

/-- **When a process gives back exactly its frames**, for a page table of any length. -/
theorem released_iff (h : Unshared pages d) :
    Released pages d (freePcbMemph (pages.map Page.entry) d) ↔ ∀ p ∈ pages, p.Fits := by
  constructor
  · exact Released.fits
  · intro hfits
    obtain ⟨hram, hnone, hswap⟩ := frames_of_fits hfits
    have hr : (freePcbMemph (pages.map Page.entry) d).mram.freeFpList.fpns.Perm
        (pages.filterMap Page.ramFrame ++ d.mram.freeFpList.fpns) := by
      rw [mram_freePcbMemph, hram]
      exact (List.reverse_perm _).append_right _
    have hs : (freePcbMemph (pages.map Page.entry) d).activeMswp.freeFpList.fpns.Perm
        (pages.filterMap Page.swapFrame ++ d.activeMswp.freeFpList.fpns) := by
      rw [activeMswp_freePcbMemph, hnone, hswap]
      rfl
    exact ⟨hr, hs, hr.nodup_iff.mpr h.ram, hs.nodup_iff.mpr h.swap⟩

/-- Of frames that fit there are not as many as a page table has entries. -/
theorem exists_not_fits (hlen : pages.length = pagingMaxPgn)
    (hnodup : (pages.filterMap Page.ramFrame).Nodup) : ∃ p ∈ pages, ¬ p.Fits := by
  by_contra hall
  have hfits : ∀ p ∈ pages, p.Fits := fun p hp => by_contra fun hnot => hall ⟨p, hp, hnot⟩
  have hcount : (pages.filterMap Page.ramFrame).length = pages.length := by
    rw [List.filterMap_length_eq_length]
    intro p hp
    obtain ⟨fpn, hfpn, -⟩ := hfits p hp
    rw [hfpn]
    rfl
  have hsub : (pages.filterMap Page.ramFrame).map BitVec.toNat ⊆ List.range (2 ^ 13) := by
    intro n hn
    obtain ⟨fpn, hmem, rfl⟩ := List.mem_map.mp hn
    obtain ⟨p, hp, hfpn⟩ := List.mem_filterMap.mp hmem
    obtain ⟨fpn', hfpn', hlt⟩ := hfits p hp
    obtain rfl := Option.some.inj (hfpn.symm.trans hfpn')
    exact List.mem_range.mpr hlt
  have hle := ((hnodup.map fun _ _ => BitVec.eq_of_toNat_eq).subperm hsub).length_le
  rw [List.length_map, hcount, hlen, List.length_range] at hle
  exact absurd hle (by decide)

/-- **No process gives back exactly its frames**: a page table has more entries than pages that
fit. -/
theorem not_released (pages : Fin pagingMaxPgn → Page) (d : Devices) :
    ¬ Released (List.ofFn pages) d (freePcbMemph ((List.ofFn pages).map Page.entry) d) := by
  intro h
  have hnodup := (h.ram.nodup_iff.mp h.ram_nodup).sublist (List.sublist_append_left _ _)
  obtain ⟨p, hp, hnot⟩ := exists_not_fits List.length_ofFn hnodup
  exact hnot (h.fits p hp)

/-- Of a process that never mapped a page, with no frame free on either device, `free_pcb_memph`
puts frame `0` of the swap device back for every entry. -/
theorem unmapped_not_released :
    Unshared (List.ofFn fun _ : Fin pagingMaxPgn => Page.unmapped)
        ⟨⟨[], 0, 0, 0, [], true⟩, ⟨[], 0, 0, 0, [], true⟩⟩ ∧
      ¬ Released (List.ofFn fun _ : Fin pagingMaxPgn => Page.unmapped)
        ⟨⟨[], 0, 0, 0, [], true⟩, ⟨[], 0, 0, 0, [], true⟩⟩
        (freePcbMemph ((List.ofFn fun _ : Fin pagingMaxPgn => Page.unmapped).map Page.entry)
          ⟨⟨[], 0, 0, 0, [], true⟩, ⟨[], 0, 0, 0, [], true⟩⟩) := by
  have hmem : ∀ p ∈ List.ofFn (fun _ : Fin pagingMaxPgn => Page.unmapped), p = .unmapped := by
    intro p hp
    obtain ⟨_, rfl⟩ := List.mem_ofFn.mp hp
    rfl
  have hram : (List.ofFn fun _ : Fin pagingMaxPgn => Page.unmapped).filterMap Page.ramFrame = [] :=
    List.filterMap_eq_nil_iff.mpr fun p hp => by rw [hmem p hp]; rfl
  have hswap :
      (List.ofFn fun _ : Fin pagingMaxPgn => Page.unmapped).filterMap Page.swapFrame = [] :=
    List.filterMap_eq_nil_iff.mpr fun p hp => by rw [hmem p hp]; rfl
  refine ⟨⟨by rw [hram]; exact List.nodup_nil, by rw [hswap]; exact List.nodup_nil⟩, ?_⟩
  intro h
  have hfirst : Page.unmapped ∈ List.ofFn fun _ : Fin pagingMaxPgn => Page.unmapped :=
    List.mem_ofFn.mpr ⟨⟨0, by decide⟩, rfl⟩
  obtain ⟨fpn, hfpn, -⟩ := h.fits .unmapped hfirst
  cases hfpn

end Ossim.Mem
