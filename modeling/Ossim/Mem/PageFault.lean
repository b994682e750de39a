import Ossim.Mem.Instruction

/-!
# Page faults that cannot be served

`pg_getpage` takes a victim off the list of pages in use, then a frame off the free list of
the swap device, then enlists the new page. Either of the first two may fail. When there is
no victim nothing has happened yet; when there is no frame the victim is off the list, and
stays off it: a page that is still where it was will not be found again. So a call that
returns `-1` leaves everything as it was just when it is not the frame that is missing
(`atomic_iff`).

## The model

The directories of `mm_struct` are the five tables that its pointers lead to. `pte_get_entry`
works out an index into each and looks at none; `pte_set_swap` and `pte_set_fpn` are not
called, the calls of them being commented out.
-/

namespace Ossim.Mem

/-- The directories of `mm_struct`; `none` is a pointer no one has stored. -/
structure PageDirs where
  /-- `pgd`. -/
  pgd : Option (List Addr)
  /-- `p4d`. -/
  p4d : Option (List Addr)
  /-- `pud`. -/
  pud : Option (List Addr)
  /-- `pmd`. -/
  pmd : Option (List Addr)
  /-- `pt`. -/
  pt : Option (List Addr)
  deriving DecidableEq

/-- What an instruction works on, with the directories. -/
structure PagedStore where
  /-- Everything else. -/
  store : Store
  /-- The directories. -/
  dirs : PageDirs

/-- `pg_getpage`, which passes the directories by. -/
def pgGetpagePaged (pgn : Word) (s : PagedStore) : Option (Option Word × PagedStore) :=
  (pgGetpage pgn s.store).map fun r => (r.1, ⟨r.2, s.dirs⟩)

/-- If the call returns `-1`, the pages in use, the free frames and the directories are as they
were. -/
def Atomic (pgn : Word) (s : PagedStore) : Prop :=
  ∀ s', pgGetpagePaged pgn s = some (none, s') →
    s'.store.mm.fifoPgn = s.store.mm.fifoPgn ∧ s'.store.freeFpList = s.store.freeFpList ∧
      s'.dirs = s.dirs

/-- There is a victim to be taken, and no frame. -/
def Exhausted (s : Store) : Prop :=
  (∃ pgns, s.mm.fifoPgn = some pgns ∧ 2 ≤ pgns.length) ∧ s.freeFpList = []

/-! ### What `pg_getpage` does -/

variable {s : Store}

/-- No page is present. -/
theorem pagePresent_pteGetEntry (pgn : Addr) : pagingPagePresent (pteGetEntry pgn) = false := by
  rw [pteGetEntry]
  decide

theorem pagingFpn_pteGetEntry (pgn : Addr) : pagingFpn (pteGetEntry pgn) = 0 := by
  rw [pteGetEntry]
  decide

/-- No page is in use: there is no victim. -/
theorem pgGetpage_of_nil (pgn : Word) (h : s.mm.fifoPgn = some []) :
    pgGetpage pgn s = some (none, s) := by
  have hfind : findVictimPage s.mm = some (none, s.mm) := by rw [findVictimPage, h]
  simp only [pgGetpage, pagePresent_pteGetEntry, hfind, Option.bind_eq_bind, Option.bind_some]
  rfl

/-- `find_victim_page` follows a pointer it may not follow. -/
theorem pgGetpage_of_wrong (pgn : Word)
    (h : s.mm.fifoPgn = none ∨ ∃ pgn', s.mm.fifoPgn = some [pgn']) : pgGetpage pgn s = none := by
  have hfind : findVictimPage s.mm = none := by
    rcases h with h | ⟨pgn', h⟩
    · rw [findVictimPage, h]
    · rw [findVictimPage, h]
  simp only [pgGetpage, pagePresent_pteGetEntry, hfind]
  rfl

/-- What is left of the pages in use when the victim is off. -/
theorem findVictimPage_of_many {mm : Mm} {pgns : List Addr} (h : mm.fifoPgn = some pgns)
    (hlen : 2 ≤ pgns.length) :
    ∃ vicpgn, findVictimPage mm =
      some (some vicpgn, { mm with fifoPgn := some pgns.dropLast }) := by
  match pgns, hlen with
  | _ :: _ :: _, _ => exact ⟨_, by rw [findVictimPage, h]⟩

/-- The victim is off, and there is no frame for it. -/
theorem pgGetpage_of_exhausted (pgn : Word) {pgns : List Addr} (h : s.mm.fifoPgn = some pgns)
    (hlen : 2 ≤ pgns.length) (hfree : s.freeFpList = []) :
    pgGetpage pgn s =
      some (none, { s with mm := { s.mm with fifoPgn := some pgns.dropLast } }) := by
  obtain ⟨vicpgn, hfind⟩ := findVictimPage_of_many h hlen
  simp only [pgGetpage, pagePresent_pteGetEntry, hfind, hfree, Option.bind_eq_bind,
    Option.bind_some]
  rfl

/-- The victim and a frame are off, and the page is enlisted. -/
theorem pgGetpage_of_served (pgn : Word) {pgns fpns : List Addr} {fpn : Addr}
    (h : s.mm.fifoPgn = some pgns) (hlen : 2 ≤ pgns.length) (hfree : s.freeFpList = fpn :: fpns) :
    pgGetpage pgn s = some (some 0,
      ⟨{ s.mm with fifoPgn := some (ofInt pgn :: pgns.dropLast) }, fpns⟩) := by
  obtain ⟨vicpgn, hfind⟩ := findVictimPage_of_many h hlen
  simp only [pgGetpage, pagePresent_pteGetEntry, pagingFpn_pteGetEntry, hfind, hfree,
    Option.bind_eq_bind, Option.bind_some]
  rfl

/-- **What becomes of a page fault**: there is a result unless `find_victim_page` goes wrong. -/
theorem pgGetpage_isSome_iff (pgn : Word) (s : Store) :
    (pgGetpage pgn s).isSome ↔ ∃ pgns, s.mm.fifoPgn = some pgns ∧ pgns.length ≠ 1 := by
  match hfifo : s.mm.fifoPgn with
  | none => simp [pgGetpage_of_wrong pgn (.inl hfifo)]
  | some [] => simp [pgGetpage_of_nil pgn hfifo]
  | some [pgn'] => simp [pgGetpage_of_wrong pgn (.inr ⟨pgn', hfifo⟩)]
  | some (pgn₁ :: pgn₂ :: pgns) =>
    have hlen : 2 ≤ (pgn₁ :: pgn₂ :: pgns).length := by simp
    cases hfree : s.freeFpList with
    | nil => simp [pgGetpage_of_exhausted pgn hfifo hlen hfree]
    | cons fpn fpns => simp [pgGetpage_of_served pgn hfifo hlen hfree]

/-- … and the result is `-1` when there is no victim, or no frame for it. -/
theorem pgGetpage_fails_iff (pgn : Word) (s : Store) :
    (∃ s', pgGetpage pgn s = some (none, s')) ↔ s.mm.fifoPgn = some [] ∨ Exhausted s := by
  match hfifo : s.mm.fifoPgn with
  | none => simp [pgGetpage_of_wrong pgn (.inl hfifo), Exhausted, hfifo]
  | some [] => simp [pgGetpage_of_nil pgn hfifo]
  | some [pgn'] => simp [pgGetpage_of_wrong pgn (.inr ⟨pgn', hfifo⟩), Exhausted, hfifo]
  | some (pgn₁ :: pgn₂ :: pgns) =>
    have hlen : 2 ≤ (pgn₁ :: pgn₂ :: pgns).length := by simp
    cases hfree : s.freeFpList with
    | nil => simp [pgGetpage_of_exhausted pgn hfifo hlen hfree, Exhausted, hfifo, hfree]
    | cons fpn fpns => simp [pgGetpage_of_served pgn hfifo hlen hfree, Exhausted, hfree]

/-- A page that is got costs a frame: none is in memory before. -/
theorem length_freeFpList_pgGetpage {pgn fpn : Word} {s' : Store}
    (h : pgGetpage pgn s = some (some fpn, s')) :
    s.freeFpList.length = s'.freeFpList.length + 1 := by
  match hfifo : s.mm.fifoPgn with
  | none => rw [pgGetpage_of_wrong pgn (.inl hfifo)] at h; cases h
  | some [] => rw [pgGetpage_of_nil pgn hfifo] at h; cases h
  | some [pgn'] => rw [pgGetpage_of_wrong pgn (.inr ⟨pgn', hfifo⟩)] at h; cases h
  | some (pgn₁ :: pgn₂ :: pgns) =>
    have hlen : 2 ≤ (pgn₁ :: pgn₂ :: pgns).length := by simp
    cases hfree : s.freeFpList with
    | nil => rw [pgGetpage_of_exhausted pgn hfifo hlen hfree] at h; cases h
    | cons fpn' fpns =>
      rw [pgGetpage_of_served pgn hfifo hlen hfree] at h
      cases h
      rfl

/-! ### Calls that return `-1` -/

/-- **When `pg_getpage` fails atomically**: unless there is a victim and no frame for it. -/
theorem atomic_iff (pgn : Word) (s : PagedStore) : Atomic pgn s ↔ ¬ Exhausted s.store := by
  rw [Atomic, pgGetpagePaged]
  constructor
  · rintro h ⟨⟨pgns, hpgns, hlen⟩, hfree⟩
    rw [pgGetpage_of_exhausted pgn hpgns hlen hfree] at h
    obtain ⟨hfifo, -, -⟩ := h _ rfl
    have hlen' := congrArg (Option.map List.length) hfifo
    rw [hpgns, Option.map_some, Option.map_some, List.length_dropLast, Option.some.injEq] at hlen'
    omega
  · intro hserved s' hs'
    obtain ⟨⟨fpn, store⟩, hr, hs'⟩ := Option.map_eq_some_iff.mp hs'
    cases hs'
    rcases (pgGetpage_fails_iff pgn s.store).mp ⟨store, hr⟩ with hnil | hexhausted
    · rw [pgGetpage_of_nil pgn hnil] at hr
      cases hr
      exact ⟨rfl, rfl, rfl⟩
    · exact absurd hexhausted hserved

/-- Pages `7` and `3` in use and no frame: page `3` is off the list after a call that fails. -/
theorem victim_lost :
    ¬ Atomic 5 ⟨⟨⟨none, fun _ => ⟨0, 0⟩, some [7, 3]⟩, []⟩, ⟨none, none, none, none, none⟩⟩ := by
  intro h
  obtain ⟨hfifo, -, -⟩ := h ⟨⟨⟨none, fun _ => ⟨0, 0⟩, some [7]⟩, []⟩, _⟩ rfl
  exact absurd hfifo (by decide)

end Ossim.Mem
