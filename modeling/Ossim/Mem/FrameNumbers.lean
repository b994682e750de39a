import Ossim.Mem.Frames
import Ossim.Mem.PageTable

/-!
# Frame numbers in page table entries

`MEMPHY_format` numbers the frames of a device from `0`, as many as its size has room for.
`init_pte` takes frame `0` for no frame and fails, though `pte_set_fpn` stores it as any
other; and the field an entry has for a frame number is 13 bits wide, which is enough for
the 2 MB of `PAGING_MEMRAMSZ` and not for every device. So a frame survives the encoding
just when it is not `0` and fits (`frame_survives_iff`), and two frames of a device are
encoded alike when the device has more than `2 ^ 13 + 1` of them.
-/

namespace Ossim.Mem

open Machine

/-- `MEMPHY_get_freefp` may return the frame `fpn`, after some calls by which frames were got
and put back. -/
def Obtainable (mp : Memphy) (fpn : Addr) : Prop :=
  ∃ ops : List (FrameOp Unit), Along frameMove PutsHeld ops ⟨mp, []⟩ ∧
    ∃ retfpn mp', memphyTakeFp (run frameMove ops ⟨mp, []⟩).mp retfpn = some (0, fpn, mp')

/-- `init_pte` of a page in frame `fpn` succeeds. -/
def Encodes (pte fpn : Addr) (swptyp : Word) (swpoff : Addr) : Prop :=
  (initPte pte 1 fpn 0 0 swptyp swpoff).1 = 0

/-- The frame number that is in the entry afterwards. -/
def encoded (pte fpn : Addr) (swptyp : Word) (swpoff : Addr) : Word :=
  pagingFpn (toInt (initPte pte 1 fpn 0 0 swptyp swpoff).2)

instance (pte fpn : Addr) (swptyp : Word) (swpoff : Addr) :
    Decidable (Encodes pte fpn swptyp swpoff) := inferInstanceAs (Decidable (_ = _))

/-! ### The frames of a device -/

theorem take_fst_eq_zero {mp mp' : Memphy} {retfpn fpn : Addr}
    (h : memphyTakeFp mp retfpn = some (0, fpn, mp')) : ∃ l, mp.freeFpList.fpns = fpn :: l := by
  rw [memphyTakeFp] at h
  cases hl : mp.freeFpList.fpns with
  | nil =>
    rw [hl] at h
    simp only at h
    split_ifs at h
    cases h
  | cons fpn' l =>
    rw [hl] at h
    cases h
    exact ⟨l, rfl⟩

/-- `k` calls of `MEMPHY_get_freefp` take `k` frames off the list. -/
theorem fpns_run_get (k : ℕ) (s : Frames Unit) :
    (run frameMove (List.replicate k (.getFreefp () 0)) s).mp.freeFpList.fpns =
      s.mp.freeFpList.fpns.drop k := by
  induction k generalizing s with
  | zero => rfl
  | succ k ih =>
    rw [List.replicate_succ, run_cons, ih]
    simp only [frameMove, memphyTakeFp]
    cases hl : s.mp.freeFpList.fpns with
    | nil => split_ifs <;> simp [hl]
    | cons fpn fpns => rfl

theorem along_get (k : ℕ) (s : Frames Unit) :
    Along frameMove PutsHeld (List.replicate k (.getFreefp () 0)) s := by
  induction k generalizing s with
  | zero => trivial
  | succ k ih => exact ⟨trivial, ih _⟩

/-- A device that starts with the frames `0` to `n - 1` returns these frames and no other. -/
theorem obtainable_iff {mp : Memphy} {n : ℕ}
    (hmp : mp.freeFpList.fpns.map BitVec.toNat = List.range n) {fpn : Addr} :
    Obtainable mp fpn ↔ fpn.toNat < n := by
  constructor
  · rintro ⟨ops, hops, retfpn, mp', htake⟩
    obtain ⟨l, hl⟩ := take_fst_eq_zero htake
    have hperm := frames_perm hmp hops
    rw [hl] at hperm
    rw [← List.mem_range, ← hperm.mem_iff]
    simp
  · intro hfpn
    refine ⟨List.replicate fpn.toNat (.getFreefp () 0), along_get _ _, 0, ?_⟩
    have hget : (mp.freeFpList.fpns.map BitVec.toNat)[fpn.toNat]? = some fpn.toNat := by
      rw [hmp, List.getElem?_range hfpn]
    rw [List.getElem?_map, Option.map_eq_some_iff] at hget
    obtain ⟨x, hx, hval⟩ := hget
    obtain rfl := BitVec.eq_of_toNat_eq hval
    obtain ⟨hlt, hx⟩ := List.getElem?_eq_some_iff.mp hx
    rw [memphyTakeFp, fpns_run_get]
    simp only [List.drop_eq_getElem_cons hlt, hx]
    exact ⟨_, rfl⟩

/-- The frames of a device of `maxsz` bytes. -/
theorem initMemphy_fpns {mp : Memphy} (hmp : mp.freeFpList.fpns = []) (maxsz randomflg : Word) :
    (initMemphy mp (ofInt maxsz) randomflg).freeFpList.fpns.map BitVec.toNat =
      List.range (maxsz.toInt.tdiv pagingPagesz).toNat := by
  have hfpns : (initMemphy mp (ofInt maxsz) randomflg).freeFpList =
      (memphyFormat { mp with
        storage := List.replicate (ofInt maxsz).toNat 0, maxsz := maxsz.toInt }
          pagingPagesz).2.freeFpList := by
    simp only [initMemphy, toInt_ofInt]
    split_ifs <;> rfl
  rw [hfpns]
  by_cases hpos : 0 < maxsz.toInt.tdiv pagingPagesz
  · rw [memphyFormat_fpns hpos, List.map_map]
    apply (List.map_congr_left _).trans (List.map_id _)
    intro k hk
    have hint : maxsz.toInt < 2 ^ 31 := BitVec.toInt_lt
    have hlt : k < (maxsz.toInt.tdiv pagingPagesz).toNat := List.mem_range.mp hk
    have hnonneg : 0 ≤ maxsz.toInt := by
      by_contra hneg
      have hnone := tdiv_pagingPagesz_nonpos (Int.not_le.mp hneg)
      omega
    have hdiv : maxsz.toInt.tdiv pagingPagesz ≤ maxsz.toInt := Int.tdiv_le_self _ hnonneg
    rw [Function.comp, BitVec.toNat_ofNat, Nat.mod_eq_of_lt (by omega), id]
  · have hnone : maxsz.toInt.tdiv pagingPagesz ≤ 0 := by omega
    simp only [memphyFormat, if_pos hnone, hmp, Int.toNat_of_nonpos hnone]
    rfl

/-! ### What survives -/

/-- What `init_pte` does with frame `0`. -/
theorem not_encodes_zero (pte : Addr) (swptyp : Word) (swpoff : Addr) :
    ¬ Encodes pte 0 swptyp swpoff := by
  simp [Encodes, initPte]

/-- What `init_pte` does with any other frame: it succeeds, and keeps 13 bits. -/
theorem encodes_of_ne_zero {fpn : Addr} (h : fpn ≠ 0) (pte : Addr) (swptyp : Word)
    (swpoff : Addr) :
    Encodes pte fpn swptyp swpoff ∧
      (encoded pte fpn swptyp swpoff).toNat = fpn.toNat % 2 ^ 13 := by
  have hone : (1 : Word) ≠ 0 := by decide
  refine ⟨?_, ?_⟩
  · rw [Encodes, initPte, if_pos hone, if_pos rfl, if_neg h]
  · rw [encoded, initPte, if_pos hone, if_pos rfl, if_neg h]
    simp only [toInt_setval, pagingFpn_setval]

/-- A frame survives the encoding just when it is not `0` and fits in 13 bits. -/
theorem survives_iff (pte fpn : Addr) (swptyp : Word) (swpoff : Addr) :
    Encodes pte fpn swptyp swpoff ∧ (encoded pte fpn swptyp swpoff).toNat = fpn.toNat ↔
      1 ≤ fpn.toNat ∧ fpn.toNat < 2 ^ 13 := by
  by_cases hfpn : fpn = 0
  · subst hfpn
    exact iff_of_false (fun h => not_encodes_zero _ _ _ h.1) nofun
  · obtain ⟨hencodes, hencoded⟩ := encodes_of_ne_zero hfpn pte swptyp swpoff
    have hpos : 1 ≤ fpn.toNat := by
      rw [Nat.one_le_iff_ne_zero]
      exact fun h => hfpn (BitVec.eq_of_toNat_eq h)
    rw [hencoded]
    refine ⟨fun h => ⟨hpos, ?_⟩, fun h => ⟨hencodes, Nat.mod_eq_of_lt h.2⟩⟩
    omega

/-- Two frames of the device `mp` may be encoded alike. -/
def Collides (mp : Memphy) : Prop :=
  ∃ fpn fpn', fpn ≠ fpn' ∧ Obtainable mp fpn ∧ Obtainable mp fpn' ∧
    ∃ pte pte' swptyp swptyp' swpoff swpoff', Encodes pte fpn swptyp swpoff ∧
      Encodes pte' fpn' swptyp' swpoff' ∧
        encoded pte fpn swptyp swpoff = encoded pte' fpn' swptyp' swpoff'

/-- **Which frames survive the page table encoding.** Of the frames a device may return, of
whatever size it is: a frame survives just when it is not `0` and less than `2 ^ 13`; and no
two are encoded alike just when there are no more than `2 ^ 13 + 1`. -/
theorem frame_survives_iff (mp : Memphy) (hmp : mp.freeFpList.fpns = []) (maxsz randomflg : Word) :
    (∀ fpn, Obtainable (initMemphy mp (ofInt maxsz) randomflg) fpn → ∀ pte swptyp swpoff,
      (Encodes pte fpn swptyp swpoff ∧ (encoded pte fpn swptyp swpoff).toNat = fpn.toNat ↔
        1 ≤ fpn.toNat ∧ fpn.toNat < 2 ^ 13)) ∧
      (¬ Collides (initMemphy mp (ofInt maxsz) randomflg) ↔
        maxsz.toInt.tdiv pagingPagesz ≤ 2 ^ 13 + 1) := by
  have hobtain : ∀ fpn, Obtainable (initMemphy mp (ofInt maxsz) randomflg) fpn ↔
      fpn.toNat < (maxsz.toInt.tdiv pagingPagesz).toNat :=
    fun _ => obtainable_iff (initMemphy_fpns hmp maxsz randomflg)
  refine ⟨fun fpn _ pte swptyp swpoff => survives_iff pte fpn swptyp swpoff, ?_⟩
  constructor
  · intro h
    by_contra hmany
    apply h
    -- frames `1` and `2 ^ 13 + 1`
    refine ⟨1, 8193, by decide, (hobtain _).mpr ?_, (hobtain _).mpr ?_, 0, 0, 0, 0, 0, 0, ?_⟩
    · show 1 < _
      omega
    · show 8193 < _
      omega
    · decide
  · rintro hfew ⟨fpn, fpn', hne, hf, hf', pte, pte', swptyp, swptyp', swpoff, swpoff', he, he', heq⟩
    have hnz : ∀ {fpn pte swptyp swpoff}, Encodes pte fpn swptyp swpoff → fpn ≠ 0 := by
      rintro _ _ _ _ h rfl
      exact not_encodes_zero _ _ _ h
    have hval := congrArg BitVec.toNat heq
    rw [(encodes_of_ne_zero (hnz he) _ _ _).2, (encodes_of_ne_zero (hnz he') _ _ _).2] at hval
    have h0 : fpn.toNat ≠ 0 := fun h => hnz he (BitVec.eq_of_toNat_eq h)
    have h0' : fpn'.toNat ≠ 0 := fun h => hnz he' (BitVec.eq_of_toNat_eq h)
    rw [hobtain] at hf hf'
    exact hne (BitVec.eq_of_toNat_eq (by omega))

/-- A device of two pages, and the second of its frames. -/
theorem frame_survives_one :
    Encodes 0 1 0 0 ∧ (encoded 0 1 0 0).toNat = (1 : Addr).toNat :=
  ((frame_survives_iff ⟨[], 0, 0, 0, [], false⟩ rfl 512 1).1 1
    ⟨[.getFreefp () 0], by decide, 0, _, rfl⟩ 0 0 0).mpr (by decide)

/-- Frame `0`, the first that such a device returns, is refused; and on a device of 4 MB the
frames `1` and `8193` are encoded alike. -/
theorem frame_zero_lost :
    (Obtainable (initMemphy ⟨[], 0, 0, 0, [], false⟩ (ofInt 512) 1) 0 ∧ ¬ Encodes 0 0 0 0) ∧
      Collides (initMemphy ⟨[], 0, 0, 0, [], false⟩ (ofInt 0x400000) 1) := by
  have hobtain : ∀ maxsz fpn, Obtainable (initMemphy ⟨[], 0, 0, 0, [], false⟩ (ofInt maxsz) 1) fpn ↔
      fpn.toNat < (maxsz.toInt.tdiv pagingPagesz).toNat :=
    fun maxsz _ => obtainable_iff (initMemphy_fpns rfl maxsz 1)
  refine ⟨⟨(hobtain _ _).mpr (by decide), not_encodes_zero _ _ _⟩, ?_⟩
  exact ⟨1, 8193, by decide, (hobtain _ _).mpr (by decide), (hobtain _ _).mpr (by decide),
    0, 0, 0, 0, 0, 0, by decide⟩

end Ossim.Mem
