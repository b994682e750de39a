import Ossim.Machine.Pool
import Ossim.Mem.Device

/-!
# The free frames of a device

A device hands out its free frames by `MEMPHY_get_freefp` and takes them back by
`MEMPHY_put_freefp`. As long as a frame is put back only by a client that holds it, the
frames held and the frames on the free list are together the frames the device started
with, each once (`framePool`). So no two clients hold the same frame, nor does one client
twice, and `MEMPHY_get_freefp` fails just when every frame is held.

That is what a pool does; `frames_refines` says that a device is one.
-/

namespace Ossim.Mem

open Machine

variable {C : Type*}

/-- A device, and who holds which of its frames. -/
structure Frames (C : Type*) where
  /-- The device. -/
  mp : Memphy
  /-- The frames a client has got and not put back. -/
  held : List (C × Addr)

/-- The calls. -/
inductive FrameOp (C : Type*) where
  /-- `c` calls `MEMPHY_get_freefp`, with what its `*retfpn` holds. -/
  | getFreefp (c : C) (retfpn : Addr)
  /-- `c` calls `MEMPHY_put_freefp`. -/
  | putFreefp (c : C) (fpn : Addr)

/-- A frame is put back by a client that holds it. -/
def PutsHeld (s : Frames C) : FrameOp C → Prop
  | .getFreefp _ _ => True
  | .putFreefp c fpn => (c, fpn) ∈ s.held

/-- The frames held, without the holders. -/
def Frames.out (s : Frames C) : List Addr := s.held.map Prod.snd

/-- The free list is the frames `0` to `n - 1`, and ends there. -/
def StartsWith (mp : Memphy) (n : ℕ) : Prop :=
  mp.freeFpList.fpns.map BitVec.toNat = List.range n ∧ mp.freeFpList.ended = true

instance (mp : Memphy) (n : ℕ) : Decidable (StartsWith mp n) :=
  inferInstanceAs (Decidable (_ ∧ _))

/-- The device as a pool. -/
def toPool (s : Frames C) : Pool.State C Addr := ⟨s.mp.freeFpList.fpns, s.held⟩

/-- The call, as the pool sees it. -/
def toPoolOp : FrameOp C → Pool.Op C Addr
  | .getFreefp c _ => .take c
  | .putFreefp c fpn => .give c fpn

variable [DecidableEq C]

instance (s : Frames C) : (op : FrameOp C) → Decidable (PutsHeld s op)
  | .getFreefp _ _ => .isTrue trivial
  | .putFreefp c fpn => inferInstanceAs (Decidable ((c, fpn) ∈ s.held))

/-- A call. -/
def frameMove : FrameOp C → Frames C → Frames C
  | .getFreefp c retfpn, s =>
    match memphyTakeFp s.mp retfpn with
    | some (r, fpn, mp) => ⟨mp, if r = 0 then (c, fpn) :: s.held else s.held⟩
    | none => s
  | .putFreefp c fpn, s => ⟨memphyPutFreefp s.mp fpn, s.held.erase (c, fpn)⟩

/-- **A device is a pool**, call by call. -/
theorem frames_refines (op : FrameOp C) (s : Frames C) :
    toPool (frameMove op s) = Pool.move (toPoolOp op) (toPool s) := by
  cases op with
  | getFreefp c retfpn =>
    simp only [frameMove, toPool, toPoolOp, Pool.move, memphyTakeFp]
    cases hl : s.mp.freeFpList.fpns with
    | nil => split_ifs <;> simp [hl]
    | cons fpn fpns => rfl
  | putFreefp c fpn => rfl

/-- No call changes how the free list ends. -/
theorem ended_frameMove (op : FrameOp C) (s : Frames C) :
    (frameMove op s).mp.freeFpList.ended = s.mp.freeFpList.ended := by
  cases op with
  | getFreefp c retfpn =>
    simp only [frameMove, memphyTakeFp]
    cases hl : s.mp.freeFpList.fpns with
    | nil => split_ifs <;> rfl
    | cons fpn fpns => rfl
  | putFreefp c fpn => rfl

/-- Held frames put back are allowed in the pool. -/
theorem along_toPool {ops : List (FrameOp C)} {s : Frames C} (h : Along frameMove PutsHeld ops s) :
    Along Pool.move Pool.Allowed (ops.map toPoolOp) (toPool s) := by
  induction ops generalizing s with
  | nil => trivial
  | cons op ops ih =>
    obtain ⟨hop, hops⟩ := h
    refine ⟨?_, ?_⟩
    · cases op with
      | getFreefp c retfpn => trivial
      | putFreefp c fpn => exact hop
    · rw [← frames_refines]
      exact ih hops

/-- The frames held and the free frames are those the device started with. -/
theorem frames_perm {mp : Memphy} {n : ℕ}
    (hmp : mp.freeFpList.fpns.map BitVec.toNat = List.range n) {ops : List (FrameOp C)}
    (h : Along frameMove PutsHeld ops ⟨mp, []⟩) :
    (((run frameMove ops ⟨mp, []⟩).out ++
      (run frameMove ops ⟨mp, []⟩).mp.freeFpList.fpns).map BitVec.toNat).Perm (List.range n) := by
  have hthings := Pool.things_run (along_toPool h)
  rw [← run_map frames_refines, Pool.things_eq, Pool.things_eq, Multiset.coe_eq_coe] at hthings
  rw [← hmp]
  exact hthings.map BitVec.toNat

theorem ended_run (ops : List (FrameOp C)) (s : Frames C) :
    (run frameMove ops s).mp.freeFpList.ended = s.mp.freeFpList.ended :=
  run_invariant (I := fun t => t.mp.freeFpList.ended = s.mp.freeFpList.ended)
    (fun op t ht => (ended_frameMove op t).trans ht) ops rfl

/-- **Frames are neither lost nor shared.** On a device that starts with the frames `0` to
`n - 1` and gets frames back only from clients that hold them, in every state reached: no
frame is held twice; the frames held and the free frames are together `0` to `n - 1`, each
once; and `MEMPHY_get_freefp` returns `-1`, changing neither the list nor `*retfpn`, just when
all `n` frames are held. -/
theorem framePool (mp : Memphy) (n : ℕ) (hmp : StartsWith mp n) (ops : List (FrameOp C))
    (h : Along frameMove PutsHeld ops ⟨mp, []⟩) :
    (run frameMove ops ⟨mp, []⟩).out.Nodup ∧
      (((run frameMove ops ⟨mp, []⟩).out ++
        (run frameMove ops ⟨mp, []⟩).mp.freeFpList.fpns).map BitVec.toNat).Perm (List.range n) ∧
      (((run frameMove ops ⟨mp, []⟩).out.map BitVec.toNat).Perm (List.range n) →
        ∀ retfpn, memphyTakeFp (run frameMove ops ⟨mp, []⟩).mp retfpn =
          some (-1, retfpn, (run frameMove ops ⟨mp, []⟩).mp)) ∧
      (¬ ((run frameMove ops ⟨mp, []⟩).out.map BitVec.toNat).Perm (List.range n) →
        ∀ retfpn, ∃ fpn mp', memphyTakeFp (run frameMove ops ⟨mp, []⟩).mp retfpn =
          some (0, fpn, mp')) := by
  have hperm := frames_perm hmp.1 h
  have hended := (ended_run ops ⟨mp, []⟩).trans hmp.2
  generalize run frameMove ops ⟨mp, []⟩ = s at hperm hended
  have hall : s.mp.freeFpList.fpns = [] ↔ (s.out.map BitVec.toNat).Perm (List.range n) := by
    constructor
    · intro hnil
      rwa [hnil, List.append_nil] at hperm
    · intro hout
      have hlen := hperm.length_eq.trans hout.length_eq.symm
      rw [List.length_map, List.length_append, List.length_map] at hlen
      exact List.length_eq_zero_iff.mp (by omega)
  refine ⟨?_, hperm, ?_, ?_⟩
  · have hnodup := hperm.nodup_iff.mpr List.nodup_range
    rw [List.map_append, List.nodup_append] at hnodup
    exact hnodup.1.of_map _
  · intro hout retfpn
    rw [memphyTakeFp_of_ended hended, hall.mpr hout]
    rfl
  · intro hout retfpn
    obtain ⟨fpn, fpns, hl⟩ := List.exists_cons_of_ne_nil fun hnil => hout (hall.mp hnil)
    rw [memphyTakeFp_of_ended hended, hl]
    exact ⟨fpn, _, rfl⟩

/-- On a device of four pages two clients get a frame each, and the first puts its own back. -/
theorem framePool_four :
    (run frameMove [FrameOp.getFreefp 'a' 9, .getFreefp 'b' 9, .putFreefp 'a' 0]
      ⟨initMemphy ⟨[], 0, 0, 0, [], false⟩ 1024 1, []⟩).out.Nodup :=
  (framePool _ 4 (by decide) _ (by decide)).1

end Ossim.Mem
