import Ossim.Machine.Scan
import Ossim.Mem.Instruction

/-!
# Loading a program

`load` (`loader.c`) reads the text of a program: the priority and the number of instructions,
and then as many instructions, each a word and the numbers that go with it.

## The model

The file is the list of its characters. What the standard library stores is as in
`Machine/Scan`, with `%u` keeping the low 32 bits of the number `%lu` would store, and no call's
result is looked at, as in the code. `opcode` and `buf` start with nothing stored in them, and
so do the fields of `code->text`; a word that does not fit `opcode`, a compare of `opcode` or a
scan of `buf` before anything is stored there, and a `code->size` no one has stored have no
value (`none`).

With each instruction goes whether its word was read for it, which the code does not keep.

What is *not* modelled: a file that cannot be opened; `pid`, `path`, `page_table`, `bp` and
`pc`, which do not depend on the text; printing.
-/

namespace Ossim.Loader

open Machine Machine.Scan Mem

deriving instance DecidableEq for InsOpcode

/-- `OPT_CALC` and the other ten. -/
def opt : InsOpcode → List Char
  | .calc => "calc".toList
  | .alloc => "alloc".toList
  | .free => "free".toList
  | .read => "read".toList
  | .write => "write".toList
  | .syscall => "syscall".toList
  | .kmalloc => "kmalloc".toList
  | .kmemCacheCreate => "kmem_cache_create".toList
  | .kmemCacheAlloc => "kmem_cache_alloc".toList
  | .copyFromUser => "copy_from_user".toList
  | .copyToUser => "copy_to_user".toList

/-- `get_opcode`, which compares its argument with one name after the other; `none` is `exit(1)`. -/
def getOpcode (s : List Char) : Option InsOpcode :=
  [.calc, .alloc, .free, .read, .write, .kmalloc, .kmemCacheCreate, .kmemCacheAlloc, .copyFromUser,
    .copyToUser, .syscall].find? fun op => cString s = opt op

/-- The number of characters of `opcode`. -/
abbrev opcodeSize : ℕ := 10

/-- The number of characters of `buf`. -/
abbrev bufSize : ℕ := 200

/-- What `load` works on. -/
structure Reader where
  /-- What is left of the file. -/
  file : List Char
  /-- `opcode`: the word stored there last. -/
  opcode : Option (List Char)
  /-- `buf`: the line stored there last. -/
  buf : Option (List Char)

/-- An instruction of `code->text`. -/
structure Loaded where
  /-- `opcode`. -/
  opcode : InsOpcode
  /-- `arg_0`, `arg_1` and so on, as far as something is stored there. -/
  args : List Addr
  /-- Whether `fscanf` stored a word in `opcode` for it. -/
  fresh : Bool
  deriving DecidableEq

/-- `fscanf` with numbers only. -/
def Reader.fscanf (r : Reader) (fmt : List Directive) : List Addr × Reader :=
  ((scanf 64 fmt r.file).1, { r with file := (scanf 64 fmt r.file).2 })

/-- `fgets(buf, sizeof(buf), file)`. -/
def Reader.fgets (r : Reader) : Reader :=
  match Scan.fgets bufSize r.file with
  | none => r
  | some (line, file) => { r with buf := some line, file := file }

/-- `fscanf(file, "%s", opcode)`, and whether it stored a word. -/
def Reader.fscanfWord (r : Reader) : Option (Bool × Reader) :=
  match word r.file with
  | none => some (false, { r with file := [] })
  | some (w, file) =>
    if w.length < opcodeSize then some (true, { r with opcode := some w, file := file }) else none

/-- The `switch` of `load`: the fields it stores. -/
def loadArgs (opcode : InsOpcode) (r : Reader) : Option (List Addr × Reader) :=
  match opcode with
  | .calc => some ([], r)
  | .kmemCacheAlloc | .kmalloc | .alloc => some (r.fscanf [.number, .space, .number, .space])
  | .free => some (r.fscanf [.number, .space])
  | .kmemCacheCreate | .read | .write =>
    some (r.fscanf [.number, .space, .number, .space, .number, .space])
  | .copyFromUser | .copyToUser | .syscall =>
    r.fgets.buf.map fun buf =>
      ((scanf 64 [.number, .number, .number, .number] (cString buf)).1, r.fgets)

/-- One turn of the loop of `load`; the inner `none` is `exit(1)`. -/
def loadInst (r : Reader) : Option (Option (Loaded × Reader)) := do
  let (fresh, r) ← r.fscanfWord
  -- at the end of the file the word is still that of the turn before
  let w ← r.opcode
  match getOpcode w with
  | none => some none
  | some opcode =>
    let (args, r) ← loadArgs opcode r
    some (some (⟨opcode, args, fresh⟩, r))

/-- The loop of `load`, with `n` turns to go. -/
def loadText : ℕ → Reader → Option (Option (List Loaded))
  | 0, _ => some (some [])
  | n + 1, r => do
    match ← loadInst r with
    | none => some none
    | some (ins, r) => (loadText n r).map (Option.map (ins :: ·))

/-- The part of `struct pcb_t` that `load` reads from the file. -/
structure Process where
  /-- `priority`. -/
  priority : Word
  /-- `code->size`. -/
  size : Word
  /-- `code->text`. -/
  text : List Loaded
  deriving DecidableEq

/-- `load`; the inner `none` is `exit(1)`. -/
def load (file : List Char) : Option (Option Process) :=
  match scanf 64 [.number, .space, .number] file with
  | ([priority, size], file) =>
    (loadText (toInt size).toNat ⟨file, none, none⟩).map
      (Option.map fun text => ⟨toInt priority, toInt size, text⟩)
  | _ => none

/-! ### Opcodes -/

/-- How many numbers `load` reads for an opcode. -/
def arity : InsOpcode → ℕ
  | .calc => 0
  | .free => 1
  | .alloc | .kmalloc | .kmemCacheAlloc => 2
  | .read | .write | .kmemCacheCreate => 3
  | .copyFromUser | .copyToUser | .syscall => 4

/-- The format with which `load` reads them. -/
def format : InsOpcode → List Directive
  | .calc => []
  | .free => [.number, .space]
  | .alloc | .kmalloc | .kmemCacheAlloc => [.number, .space, .number, .space]
  | .read | .write | .kmemCacheCreate => [.number, .space, .number, .space, .number, .space]
  | .copyFromUser | .copyToUser | .syscall => [.number, .number, .number, .number]

/-- Whether `load` reads a line first. -/
def readsLine : InsOpcode → Bool
  | .copyFromUser | .copyToUser | .syscall => true
  | _ => false

theorem count_format (op : InsOpcode) : (format op).count .number = arity op := by
  cases op <;> rfl

theorem getOpcode_opt (op : InsOpcode) : getOpcode (opt op) = some op := by
  cases op <;> decide

theorem opt_ne_nil (op : InsOpcode) : opt op ≠ [] := by
  cases op <;> decide

theorem isSpace_of_mem_opt {op : InsOpcode} {c : Char} (h : c ∈ opt op) : isSpace c = false := by
  have hall : (opt op).all (!isSpace ·) = true := by cases op <;> rfl
  simpa using List.all_eq_true.mp hall c h

/-! ### What a turn reads -/

variable {r : Reader} {n : ℕ} {op : InsOpcode} {w s t : List Char} {line : Option (List Char)}

/-- What is in `buf` when an instruction has been read, where `t` is the text after its word. At
the end of the file `fgets` leaves `buf` as it was. -/
def lineAfter (op : InsOpcode) (line : Option (List Char)) (t : List Char) : Option (List Char) :=
  if readsLine op ∧ t ≠ [] then some (takeLine (bufSize - 1) t).1 else line

/-- The text that the numbers of the instruction are taken from. -/
def source (op : InsOpcode) (line : Option (List Char)) (t : List Char) : Option (List Char) :=
  if readsLine op then (lineAfter op line t).map cString else some t

/-- What is left of the text after the instruction. -/
def after (op : InsOpcode) (t : List Char) : List Char :=
  if readsLine op then (takeLine (bufSize - 1) t).2 else (scanf 64 (format op) t).2

theorem loadArgs_eq (op : InsOpcode) (t : List Char) (w line : Option (List Char)) :
    loadArgs op ⟨t, w, line⟩ = (source op line t).map fun u =>
      ((scanf 64 (format op) u).1, ⟨after op t, w, lineAfter op line t⟩) := by
  have hfgets : Reader.fgets ⟨t, w, line⟩ =
      ⟨(takeLine (bufSize - 1) t).2, w,
        if t ≠ [] then some (takeLine (bufSize - 1) t).1 else line⟩ := by
    cases t <;> rfl
  cases op <;> simp [loadArgs, hfgets, Reader.fscanf, source, after, lineAfter, readsLine, format,
    scanf, Option.map_map, Function.comp_def]

/-- The instruction that a turn of the loop reads, with its numbers from the text `u`. -/
def readInst (op : InsOpcode) (u : List Char) (fresh : Bool) : Loaded :=
  ⟨op, (scanf 64 (format op) u).1, fresh⟩

/-- What is left then, where `t` is what comes after its word `w`. -/
def Reader.next (r : Reader) (op : InsOpcode) (w t : List Char) : Reader :=
  ⟨after op t, some w, lineAfter op r.buf t⟩

theorem loadInst_of_word (hw : word r.file = some (w, t)) (hfit : w.length < opcodeSize)
    (hop : getOpcode w = some op) :
    loadInst r = (source op r.buf t).map fun u => some (readInst op u true, r.next op w t) := by
  simp only [loadInst, Reader.fscanfWord, hw, hfit, hop, loadArgs_eq, if_true, Option.bind_eq_bind,
    Option.bind_some, Option.bind_map]
  cases source op r.buf t <;> rfl

theorem loadInst_of_unknown (hw : word r.file = some (w, t)) (hfit : w.length < opcodeSize)
    (hop : getOpcode w = none) : loadInst r = some none := by
  simp [loadInst, Reader.fscanfWord, hw, hfit, hop]

theorem loadInst_of_long (hw : word r.file = some (w, t)) (hfit : ¬ w.length < opcodeSize) :
    loadInst r = none := by
  simp [loadInst, Reader.fscanfWord, hw, hfit]

/-- At the end of the file the opcode is that of the turn before. -/
theorem loadInst_of_end (hw : word r.file = none) (hr : r.opcode = some w)
    (hop : getOpcode w = some op) :
    loadInst r = (source op r.buf []).map fun u => some (readInst op u false, r.next op w []) := by
  simp only [loadInst, Reader.fscanfWord, hw, hr, hop, loadArgs_eq, Option.bind_eq_bind,
    Option.bind_some, Option.bind_map]
  cases source op r.buf [] <;> rfl

/-! ### The loop -/

theorem loadText_succ_eq_exit :
    loadText (n + 1) r = some none ↔ loadInst r = some none ∨
      ∃ ins r', loadInst r = some (some (ins, r')) ∧ loadText n r' = some none := by
  rw [loadText]
  rcases hins : loadInst r with _ | _ | ⟨ins, r'⟩
  · simp
  · simp
  · rcases htext : loadText n r' with _ | _ | text <;> simp [htext, and_assoc]

theorem loadText_succ_eq_text {text : List Loaded} :
    loadText (n + 1) r = some (some text) ↔ ∃ ins r' text', loadInst r = some (some (ins, r')) ∧
      loadText n r' = some (some text') ∧ text = ins :: text' := by
  rw [loadText]
  rcases hins : loadInst r with _ | _ | ⟨ins, r'⟩
  · simp
  · simp
  · rcases htext : loadText n r' with _ | _ | text' <;> simp [htext, and_assoc, eq_comm (a := text)]

theorem length_of_loadText {text : List Loaded} (h : loadText n r = some (some text)) :
    text.length = n := by
  induction n generalizing r text with
  | zero => cases h; rfl
  | succ n ih =>
    obtain ⟨ins, r', text', _, htext', rfl⟩ := loadText_succ_eq_text.mp h
    rw [List.length_cons, ih htext']

end Ossim.Loader
