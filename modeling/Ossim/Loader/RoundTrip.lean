import Ossim.Loader.Load

/-!
# Printing a program and loading it

A program is printed as the files of `input/proc` are: the priority and the number of
instructions, and then each instruction on a line of its own. `load` reads it back as long as
it comes to no word that does not fit `opcode`. Four of the eleven names do not
(`roundTrips_iff`): the shortest of them has twelve characters.

The three ways in which `load` reads numbers leave the file at different places: at the end of
the line, at the next word, at the next line. Up to white space these are the same place.
-/

namespace Ossim.Loader

open Machine Machine.Scan Mem

/-! ### Programs -/

/-- An instruction of a program. -/
structure Instr where
  /-- Its opcode. -/
  opcode : InsOpcode
  /-- Its arguments. -/
  args : List Addr
  /-- There are as many as the opcode takes. -/
  length_args : args.length = arity opcode

/-- A program. -/
structure Program where
  /-- Its priority. -/
  priority : Word
  /-- Its instructions. -/
  text : List Instr

/-- The line of an instruction. -/
def printInst (ins : Instr) : List Char := opt ins.opcode ++ (fields ins.args ++ ['\n'])

/-- The lines of the instructions. -/
def printText (text : List Instr) : List Char := text.flatMap printInst

/-- The text of a program. -/
def print (p : Program) : List Char :=
  decimal p.priority.toNat ++ ' ' :: (decimal p.text.length ++ '\n' :: printText p.text)

/-- An opcode's name and the null character after it fit `opcode`. -/
def Fits (op : InsOpcode) : Prop := (opt op).length + 1 ≤ opcodeSize

instance (op : InsOpcode) : Decidable (Fits op) := inferInstanceAs (Decidable (_ ≤ _))

/-- What `load` makes of an instruction. -/
def Instr.loaded (ins : Instr) : Loaded := ⟨ins.opcode, ins.args, true⟩

/-- The program is loaded as it was printed. -/
structure RoundTrips (p : Program) : Prop where
  /-- No word is too long. -/
  fits : ∀ ins ∈ p.text, Fits ins.opcode
  /-- The priority, the code size and the instructions are the same. -/
  loads : ∃ q, load (print p) = some (some q) ∧ q.priority = p.priority ∧
    q.size.toNat = p.text.length ∧
    q.text.map (fun ins => (ins.opcode, ins.args)) = p.text.map (fun ins => (ins.opcode, ins.args))

/-! ### One instruction -/

variable {ins : Instr} {text : List Instr} {r : Reader} {t : List Char}

theorem skipSpace_opt (op : InsOpcode) (t : List Char) : skipSpace (opt op ++ t) = opt op ++ t := by
  cases op <;> rfl

@[simp] theorem printText_cons (ins : Instr) (text : List Instr) :
    printText (ins :: text) = opt ins.opcode ++ (fields ins.args ++ '\n' :: printText text) := by
  simp [printText, printInst]

theorem skipSpace_printText (text : List Instr) : skipSpace (printText text) = printText text := by
  cases text with
  | nil => rfl
  | cons ins text => rw [printText_cons, skipSpace_opt]

/-- `load` comes to the word of the instruction. -/
theorem word_printText (h : skipSpace r.file = printText (ins :: text)) :
    word r.file = some (opt ins.opcode, fields ins.args ++ '\n' :: printText text) := by
  rw [printText_cons] at h
  refine word_of_skipSpace h (opt_ne_nil _) (fun c => isSpace_of_mem_opt) ?_
  cases hargs : ins.args <;> simp [isSpace]

/-- A line fits `buf`. -/
theorem takeLine_fields (ins : Instr) (t : List Char) :
    takeLine (bufSize - 1) (fields ins.args ++ '\n' :: t) = (fields ins.args ++ ['\n'], t) := by
  refine takeLine_append ?_ ?_ t
  · have hle := length_fields_le (k := 20) (by omega) (by decide) ins.args
    have harity : arity ins.opcode ≤ 4 := by cases ins.opcode <;> simp [arity]
    have := ins.length_args
    have : ins.args.length * (20 + 1) ≤ 4 * (20 + 1) := Nat.mul_le_mul_right _ (by omega)
    show _ < 199
    omega
  · intro hmem
    rcases mem_fields hmem with h | h <;> exact absurd h (by decide)

theorem cString_fields (vs : List Addr) : cString (fields vs ++ ['\n']) = fields vs ++ ['\n'] := by
  refine cString_of_not_mem fun hmem => ?_
  rcases List.mem_append.mp hmem with hmem | hmem
  · rcases mem_fields hmem with h | h <;> exact absurd h (by decide)
  · exact absurd hmem (by decide)

/-- The numbers of the instruction are read back, and after it the file is at the next. -/
theorem source_printText (ins : Instr) (line : Option (List Char)) (text : List Instr) :
    ∃ u, source ins.opcode line (fields ins.args ++ '\n' :: printText text) = some u ∧
      (scanf 64 (format ins.opcode) u).1 = ins.args ∧
      skipSpace (after ins.opcode (fields ins.args ++ '\n' :: printText text)) =
        printText text := by
  have hfmt : (format ins.opcode).count .number = ins.args.length := by
    rw [count_format, ins.length_args]
  have hnl : ∀ t : List Char, ∀ c ∈ ('\n' :: t).head?, c.isDigit = false := by simp
  cases hline : readsLine ins.opcode with
  | true =>
    refine ⟨fields ins.args ++ ['\n'], ?_, (scanf_fields hfmt (hnl []) rfl).1, ?_⟩
    · rw [source, if_pos hline, lineAfter, if_pos ⟨hline, by simp⟩, takeLine_fields,
        Option.map_some, cString_fields]
    · rw [after, if_pos hline, takeLine_fields, skipSpace_printText]
  | false =>
    obtain ⟨hargs, hrest⟩ := scanf_fields hfmt (hnl (printText text)) rfl
    refine ⟨fields ins.args ++ '\n' :: printText text, by simp [source, hline], hargs, ?_⟩
    simpa [after, hline, skipSpace_printText] using hrest

theorem loadInst_print (hfits : Fits ins.opcode) (h : skipSpace r.file = printText (ins :: text)) :
    ∃ r', loadInst r = some (some (ins.loaded, r')) ∧ skipSpace r'.file = printText text := by
  obtain ⟨u, hu, hargs, hafter⟩ := source_printText ins r.buf text
  refine ⟨r.next ins.opcode (opt ins.opcode) (fields ins.args ++ '\n' :: printText text), ?_,
    hafter⟩
  rw [loadInst_of_word (word_printText h) hfits (getOpcode_opt _), hu, Option.map_some, readInst,
    hargs]
  rfl

theorem loadInst_print_of_long (hlong : ¬ Fits ins.opcode)
    (h : skipSpace r.file = printText (ins :: text)) : loadInst r = none :=
  loadInst_of_long (word_printText h) hlong

/-! ### All of them -/

/-- The loop reads back what was printed, unless it comes to a word that is too long. -/
theorem loadText_print (h : skipSpace r.file = printText text) :
    loadText text.length r =
      if ∀ ins ∈ text, Fits ins.opcode then some (some (text.map Instr.loaded)) else none := by
  induction text generalizing r with
  | nil => simp [loadText]
  | cons ins text ih =>
    by_cases hfits : Fits ins.opcode
    · obtain ⟨r', hins, hr'⟩ := loadInst_print hfits h
      rw [List.length_cons, loadText, hins, Option.bind_eq_bind, Option.bind_some]
      simp only [ih hr', List.forall_mem_cons, hfits, true_and]
      split <;> rfl
    · rw [List.length_cons, loadText, loadInst_print_of_long hfits h,
        if_neg fun hall => hfits (hall ins List.mem_cons_self)]
      rfl

/-- The header is read back. -/
theorem scanf_print (p : Program) (hsize : p.text.length < 2 ^ 32) :
    ∃ file, scanf 64 [.number, .space, .number] (print p) =
        ([p.priority.setWidth 64, BitVec.ofNat 64 p.text.length], file) ∧
      skipSpace file = printText p.text := by
  have hpriority : (p.priority.setWidth 64).toNat = p.priority.toNat :=
    BitVec.toNat_setWidth_of_le (by omega)
  have hlength : (BitVec.ofNat 64 p.text.length).toNat = p.text.length := by
    rw [BitVec.toNat_ofNat]
    omega
  have hprint : skipSpace (print p) = skipSpace
      (fields [p.priority.setWidth 64, BitVec.ofNat 64 p.text.length] ++
        '\n' :: printText p.text) := by
    simp only [print, fields_cons, fields_nil, hpriority, hlength, List.cons_append,
      List.append_assoc, List.nil_append, skipSpace_blank]
  have hfmt : [Directive.number, .space, .number].count .number = 2 := rfl
  obtain ⟨hvs, hfile⟩ := scanf_fields hfmt (by simp) hprint
  exact ⟨_, Prod.ext hvs rfl, by rw [hfile, skipSpace_newline, skipSpace_printText]⟩

/-- What `load` makes of a program that has been printed. -/
theorem load_print (p : Program) (hsize : p.text.length < 2 ^ 32) :
    load (print p) = if ∀ ins ∈ p.text, Fits ins.opcode then
      some (some ⟨p.priority, BitVec.ofNat 32 p.text.length, p.text.map Instr.loaded⟩)
    else none := by
  obtain ⟨file, hheader, hfile⟩ := scanf_print p hsize
  have hpriority : toInt (p.priority.setWidth 64) = p.priority := by simp [toInt]
  have hsize' : toInt (BitVec.ofNat 64 p.text.length) = BitVec.ofNat 32 p.text.length := by
    simp [toInt, BitVec.setWidth_ofNat_of_le]
  have hlength : (BitVec.ofNat 32 p.text.length).toNat = p.text.length := by
    rw [BitVec.toNat_ofNat]
    omega
  rw [load, hheader]
  simp only [hpriority, hsize', hlength]
  rw [loadText_print (r := ⟨file, none, none⟩) hfile]
  split <;> rfl

/-- The names that do not fit. -/
theorem fits_iff (op : InsOpcode) :
    Fits op ↔ op ∉ [.kmemCacheCreate, .kmemCacheAlloc, .copyFromUser, .copyToUser] := by
  cases op <;> decide

/-- **Printing and loading.** A program is loaded as it was printed if and only if it has fewer
than `2 ^ 32` instructions and none of them has one of the four long names. -/
theorem roundTrips_iff (p : Program) :
    RoundTrips p ↔ p.text.length < 2 ^ 32 ∧ ∀ ins ∈ p.text,
      ins.opcode ∉ [.kmemCacheCreate, .kmemCacheAlloc, .copyFromUser, .copyToUser] := by
  constructor
  · intro h
    obtain ⟨q, _, _, hsize, _⟩ := h.loads
    exact ⟨hsize ▸ q.size.isLt, fun ins hins => (fits_iff _).mp (h.fits ins hins)⟩
  · rintro ⟨hsize, hshort⟩
    have hfits : ∀ ins ∈ p.text, Fits ins.opcode := fun ins hins =>
      (fits_iff _).mpr (hshort ins hins)
    have hload := load_print p hsize
    rw [if_pos hfits] at hload
    refine ⟨hfits, _, hload, rfl, ?_, ?_⟩
    · show (BitVec.ofNat 32 p.text.length).toNat = _
      rw [BitVec.toNat_ofNat]
      omega
    · rw [List.map_map]
      rfl

/-- A line of `m2s`. -/
theorem not_roundTrips_copyToUser :
    ¬ RoundTrips ⟨1, [⟨.copyToUser, [3, 4, 0, 3], rfl⟩]⟩ ∧
      load (print ⟨1, [⟨.copyToUser, [3, 4, 0, 3], rfl⟩]⟩) = none := by
  refine ⟨fun h => absurd (h.fits _ List.mem_cons_self) (by decide), ?_⟩
  rw [load_print _ (by decide)]
  exact if_neg fun hall => absurd (hall _ List.mem_cons_self) (by decide)

end Ossim.Loader
