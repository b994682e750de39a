import Ossim.Loader.Load

/-!
# Programs that are not all there

`load` looks at no result of `fscanf`, `fgets` and `sscanf`. It rejects a file only where
`get_opcode` does, at a word that is no opcode. Where a number is missing, a field of the
instruction keeps what `malloc` left there; where the file has ended, the opcode is that of the
instruction before; and a word that is too long goes past the end of `opcode`.

So what is executed is determined by the text if the text is complete, or is rejected in the
end, and otherwise not (`determined_iff`).
-/

namespace Ossim.Loader

open Machine Machine.Scan Mem

/-! ### What `run` uses -/

/-- How many of `arg_0`, `arg_1` and so on `run` passes on. Of the third one of a `READ` it passes
the address. -/
def passes : InsOpcode → ℕ
  | .calc => 0
  | .alloc => 2
  | .kmalloc => 2
  | .kmemCacheCreate => 3
  | .kmemCacheAlloc => 2
  | .copyFromUser => 4
  | .copyToUser => 4
  | .free => 1
  | .read => 3
  | .write => 3
  | .syscall => 4

/-- The `switch` of `run` uses what the `switch` of `load` reads. -/
theorem passes_eq (op : InsOpcode) : passes op = arity op := by
  cases op <;> rfl

/-- `struct inst_t`, where `junk` is in the fields in which nothing is stored. -/
def Loaded.inst (ins : Loaded) (junk : ℕ → Addr) : Inst :=
  ⟨ins.opcode, ins.args.getD 0 (junk 0), ins.args.getD 1 (junk 1), ins.args.getD 2 (junk 2),
    ins.args.getD 3 (junk 3)⟩

/-- What has been loaded is in the file. -/
structure FromText (p : Process) : Prop where
  /-- The file has as many instructions as `code->size` says. -/
  words : p.size.toNat ≤ p.text.countP (·.fresh)
  /-- Every field that `run` passes on has been stored. -/
  args : ∀ ins ∈ p.text, passes ins.opcode ≤ ins.args.length

/-- What is executed is determined by the file: what is in the fields in which nothing is stored
makes no difference (`FromText.execute_eq`). -/
def Determined (file : List Char) : Prop :=
  load file = some none ∨ ∃ p, load file = some (some p) ∧ FromText p

/-- What `run` does depends on the fields that it passes on only. -/
theorem execute_congr {op : InsOpcode} {a₀ a₁ a₂ a₃ b₀ b₁ b₂ b₃ : Addr}
    (h₀ : 0 < passes op → a₀ = b₀) (h₁ : 1 < passes op → a₁ = b₁) (h₂ : 2 < passes op → a₂ = b₂)
    (h₃ : 3 < passes op → a₃ = b₃) (s : Store) :
    execute ⟨op, a₀, a₁, a₂, a₃⟩ s = execute ⟨op, b₀, b₁, b₂, b₃⟩ s := by
  cases op <;> simp_all [execute, passes]

/-- What is in the fields in which nothing is stored makes no difference. -/
theorem FromText.execute_eq {p : Process} (h : FromText p) {ins : Loaded} (hins : ins ∈ p.text)
    (junk junk' : ℕ → Addr) (s : Store) :
    execute (ins.inst junk) s = execute (ins.inst junk') s := by
  have hget : ∀ i, i < passes ins.opcode →
      ins.args.getD i (junk i) = ins.args.getD i (junk' i) := by
    intro i hi
    have hlt : i < ins.args.length := Nat.lt_of_lt_of_le hi (h.args ins hins)
    rw [List.getD_eq_getElem?_getD, List.getD_eq_getElem?_getD, List.getElem?_eq_getElem hlt]
    rfl
  exact execute_congr (hget 0) (hget 1) (hget 2) (hget 3) s

/-! ### Texts -/

variable {n : ℕ} {op : InsOpcode} {w s t : List Char} {line : Option (List Char)}

/-- The text begins with an opcode's name, and `t` is after it. -/
def Opens (s : List Char) (op : InsOpcode) (t : List Char) : Prop :=
  ∃ w, word s = some (w, t) ∧ w.length < opcodeSize ∧ getOpcode w = some op

/-- Before there have been `n` instructions, complete or not, the text has a word that is no
opcode's name. -/
inductive Rejected : ℕ → List Char → Prop where
  /-- It is the next word. -/
  | word {n : ℕ} {s w t : List Char} : word s = some (w, t) → w.length < opcodeSize →
      getOpcode w = none → Rejected (n + 1) s
  /-- It comes after an instruction. -/
  | inst {n : ℕ} {s t : List Char} {op : InsOpcode} : Opens s op t → Rejected n (after op t) →
      Rejected (n + 1) s

/-- All the numbers of an instruction are there, where `t` comes after its word and `line` is the
last line `fgets` has stored. -/
def HasNumbers (op : InsOpcode) (line : Option (List Char)) (t : List Char) : Prop :=
  ∃ u, source op line t = some u ∧ (scanf 64 (format op) u).1.length = arity op

/-- The text has `n` instructions, each with its numbers. -/
inductive Complete : ℕ → Option (List Char) → List Char → Prop where
  /-- There is nothing to be read. -/
  | done {line : Option (List Char)} {s : List Char} : Complete 0 line s
  /-- One instruction and the rest. -/
  | inst {n : ℕ} {line : Option (List Char)} {s t : List Char} {op : InsOpcode} : Opens s op t →
      HasNumbers op line t → Complete n (lineAfter op line t) (after op t) →
      Complete (n + 1) line s

theorem not_opens_nil : ¬ Opens [] op t := by
  rintro ⟨w, hw, -⟩
  simp at hw

theorem after_nil (op : InsOpcode) : after op [] = [] := by
  unfold after
  split <;> simp

theorem not_rejected_nil : ¬ Rejected n [] := by
  intro h
  cases h with
  | word hw _ _ => simp at hw
  | inst hop _ => exact not_opens_nil hop

theorem source_eq_none (h : source op line t = none) : t = [] := by
  by_contra ht
  simp only [source, lineAfter] at h
  split at h
  · next hline => rw [if_pos ⟨hline, ht⟩] at h; cases h
  · cases h

/-! ### A turn of the loop -/

variable {r : Reader}

/-- What is in `opcode` is an opcode's name, if anything. -/
def Reader.Named (r : Reader) : Prop := ∀ w, r.opcode = some w → ∃ op, getOpcode w = some op

theorem Reader.named_next (hop : getOpcode w = some op) : (r.next op w t).Named := by
  rintro _ ⟨⟩
  exact ⟨op, hop⟩

/-- What a turn can do that has a value. -/
theorem loadInst_cases (hr : r.Named) {x : Option (Loaded × Reader)} (h : loadInst r = some x) :
    (x = none ∧ ∃ w t, word r.file = some (w, t) ∧ w.length < opcodeSize ∧ getOpcode w = none) ∨
      (∃ op w t u, Opens r.file op t ∧ getOpcode w = some op ∧ source op r.buf t = some u ∧
        x = some (readInst op u true, r.next op w t)) ∨
      ∃ op w u, getOpcode w = some op ∧ x = some (readInst op u false, r.next op w []) := by
  cases hw : word r.file with
  | none =>
    cases hopcode : r.opcode with
    | none => simp [loadInst, Reader.fscanfWord, hw, hopcode] at h
    | some w =>
      obtain ⟨op, hop⟩ := hr w hopcode
      rw [loadInst_of_end hw hopcode hop] at h
      obtain ⟨u, -, rfl⟩ := Option.map_eq_some_iff.mp h
      exact .inr (.inr ⟨op, w, u, hop, rfl⟩)
  | some wt =>
    obtain ⟨w, t⟩ := wt
    by_cases hfit : w.length < opcodeSize
    · cases hop : getOpcode w with
      | none =>
        rw [loadInst_of_unknown hw hfit hop] at h
        cases h
        exact .inl ⟨rfl, w, t, rfl, hfit, hop⟩
      | some op =>
        rw [loadInst_of_word hw hfit hop] at h
        obtain ⟨u, hu, rfl⟩ := Option.map_eq_some_iff.mp h
        exact .inr (.inl ⟨op, w, t, u, ⟨w, hw, hfit, hop⟩, hop, hu, rfl⟩)
    · rw [loadInst_of_long hw hfit] at h
      cases h

/-! ### The loop -/

/-- `load` rejects what comes to a word that is no opcode's name, and nothing else. -/
theorem rejected_iff (hr : r.Named) : loadText n r = some none ↔ Rejected n r.file := by
  induction n generalizing r with
  | zero => constructor <;> intro h <;> cases h
  | succ n ih =>
    rw [loadText_succ_eq_exit]
    constructor
    · rintro (h | ⟨ins, r', h, hrest⟩)
      · rcases loadInst_cases hr h with
          ⟨-, w, t, hw, hfit, hop⟩ | ⟨_, _, _, _, -, -, -, h⟩ | ⟨_, _, _, -, h⟩
        · exact .word hw hfit hop
        · cases h
        · cases h
      · rcases loadInst_cases hr h with
          ⟨h, -⟩ | ⟨op, w, t, u, hopens, hop, -, h⟩ | ⟨op, w, u, hop, h⟩
        · cases h
        · cases h
          exact .inst hopens ((ih (Reader.named_next hop)).mp hrest)
        · -- nothing rejects the end of the file
          cases h
          have := (ih (Reader.named_next hop)).mp hrest
          rw [Reader.next, after_nil] at this
          exact absurd this not_rejected_nil
    · intro h
      cases h with
      | word hw hfit hop => exact .inl (loadInst_of_unknown hw hfit hop)
      | @inst _ _ t op hopens hrest =>
        obtain ⟨w, hw, hfit, hop⟩ := hopens
        cases hu : source op r.buf t with
        | none =>
          rw [source_eq_none hu, after_nil] at hrest
          exact absurd hrest not_rejected_nil
        | some u =>
          refine .inr ⟨readInst op u true, r.next op w t, ?_,
            (ih (Reader.named_next hop)).mpr hrest⟩
          rw [loadInst_of_word hw hfit hop, hu]
          rfl

/-- The word of an instruction has been read for it, and what `run` passes on is stored. -/
def Loaded.Whole (ins : Loaded) : Prop := ins.fresh = true ∧ passes ins.opcode ≤ ins.args.length

theorem hasNumbers_iff {u : List Char} (hu : source op line t = some u) :
    HasNumbers op line t ↔ (readInst op u true).Whole := by
  have hle : (scanf 64 (format op) u).1.length ≤ arity op := count_format op ▸ length_scanf_le _ u
  simp only [HasNumbers, hu, Option.some.injEq, exists_eq_left', Loaded.Whole, readInst, passes_eq,
    true_and]
  omega

/-- All that `load` reads is whole if the text is complete, and only then. -/
theorem complete_iff (hr : r.Named) :
    (∃ text, loadText n r = some (some text) ∧ ∀ ins ∈ text, ins.Whole) ↔
      Complete n r.buf r.file := by
  induction n generalizing r with
  | zero => exact ⟨fun _ => .done, fun _ => ⟨[], rfl, by simp⟩⟩
  | succ n ih =>
    constructor
    · rintro ⟨_, htext, hall⟩
      obtain ⟨ins, r', text, h, hrest, rfl⟩ := loadText_succ_eq_text.mp htext
      rw [List.forall_mem_cons] at hall
      rcases loadInst_cases hr h with
        ⟨h, -⟩ | ⟨op, w, t, u, hopens, hop, hu, h⟩ | ⟨op, w, u, hop, h⟩
      · cases h
      · cases h
        exact .inst hopens ((hasNumbers_iff hu).mpr hall.1)
          ((ih (Reader.named_next hop)).mp ⟨text, hrest, hall.2⟩)
      · cases h
        exact absurd hall.1.1 (by simp [readInst])
    · intro h
      cases h with
      | @inst _ _ _ t op hopens hnumbers hrest =>
        obtain ⟨w, hw, hfit, hop⟩ := hopens
        obtain ⟨text, htext, hall⟩ := (ih (r := r.next op w t) (Reader.named_next hop)).mpr hrest
        have ⟨u, hu, _⟩ := hnumbers
        refine ⟨readInst op u true :: text, loadText_succ_eq_text.mpr ⟨_, _, text, ?_, htext, rfl⟩,
          List.forall_mem_cons.mpr ⟨(hasNumbers_iff hu).mp hnumbers, hall⟩⟩
        rw [loadInst_of_word hw hfit hop, hu]
        rfl

/-! ### The file -/

theorem load_of_header {file rest : List Char} {priority size : Addr}
    (h : scanf 64 [.number, .space, .number] file = ([priority, size], rest)) :
    load file = (loadText (toInt size).toNat ⟨rest, none, none⟩).map
      (Option.map fun text => ⟨toInt priority, toInt size, text⟩) := by
  rw [load, h]

theorem header_of_load {file : List Char} {x : Option Process} (h : load file = some x) :
    ∃ priority size rest,
      scanf 64 [.number, .space, .number] file = ([priority, size], rest) := by
  rw [load] at h
  split at h
  · next priority size rest hheader => exact ⟨priority, size, rest, hheader⟩
  · cases h

theorem fromText_iff {p : Process} (hp : p.text.length = p.size.toNat) :
    FromText p ↔ ∀ ins ∈ p.text, ins.Whole := by
  constructor
  · rintro ⟨hwords, hargs⟩ ins hins
    rw [← hp] at hwords
    have hcount := Nat.le_antisymm List.countP_le_length hwords
    exact ⟨List.countP_eq_length.mp hcount ins hins, hargs ins hins⟩
  · intro h
    have hcount : p.text.countP (·.fresh) = p.text.length :=
      List.countP_eq_length.mpr fun ins hins => (h ins hins).1
    exact ⟨by omega, fun ins hins => (h ins hins).2⟩

/-- **Which files determine what is executed.** The header has two numbers, and the text after it
either comes to a word that is no opcode's name or has all the instructions that the header
announces, each with its numbers. -/
theorem determined_iff (file : List Char) :
    Determined file ↔ ∃ priority size rest,
      scanf 64 [.number, .space, .number] file = ([priority, size], rest) ∧
        (Rejected (toInt size).toNat rest ∨ Complete (toInt size).toNat none rest) := by
  have hnamed : ∀ rest, Reader.Named ⟨rest, none, none⟩ := fun rest w hw => by cases hw
  constructor
  · intro h
    obtain ⟨x, hx⟩ : ∃ x, load file = some x := by
      rcases h with h | ⟨p, h, -⟩
      · exact ⟨_, h⟩
      · exact ⟨_, h⟩
    obtain ⟨priority, size, rest, hheader⟩ := header_of_load hx
    refine ⟨priority, size, rest, hheader, ?_⟩
    rw [Determined, load_of_header hheader] at h
    rcases h with h | ⟨p, h, hp⟩
    · obtain ⟨y, hy, hnone⟩ := Option.map_eq_some_iff.mp h
      obtain rfl := Option.map_eq_none_iff.mp hnone
      exact .inl ((rejected_iff (hnamed rest)).mp hy)
    · obtain ⟨y, hy, hsome⟩ := Option.map_eq_some_iff.mp h
      obtain ⟨text, rfl, rfl⟩ := Option.map_eq_some_iff.mp hsome
      have hlength := length_of_loadText hy
      exact .inr ((complete_iff (hnamed rest)).mp ⟨text, hy, (fromText_iff hlength).mp hp⟩)
  · rintro ⟨priority, size, rest, hheader, h | h⟩
    · refine .inl ?_
      rw [load_of_header hheader, (rejected_iff (hnamed rest)).mpr h]
      rfl
    · obtain ⟨text, htext, hall⟩ := (complete_iff (hnamed rest)).mpr h
      refine .inr ⟨⟨toInt priority, toInt size, text⟩, ?_, ?_⟩
      · rw [load_of_header hheader, htext]
        rfl
      · exact (fromText_iff (length_of_loadText htext)).mpr hall

/-- The program `sc1`. -/
def sc1 : List Char := "20 1\nsyscall 0 \n".toList

/-- `run` passes on three fields of `sc1` that no one has stored. -/
theorem not_determined_sc1 : ¬ Determined sc1 := by
  have hload : load sc1 = some (some ⟨20, 1, [⟨.syscall, [0], true⟩]⟩) := by decide
  rintro (h | ⟨p, h, hp⟩)
  · rw [hload] at h
    cases h
  · rw [hload] at h
    cases h
    exact absurd (hp.args _ List.mem_cons_self) (by decide)

end Ossim.Loader
