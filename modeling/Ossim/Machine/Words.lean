import Mathlib.Algebra.Group.Nat.Defs
import Mathlib.Data.Nat.Notation
import Ossim.Machine.Scan

/-!
# Words

The words of a text are what stands between its white space. A conversion that takes a whole word
(`Reads`) does so however the words are laid out, so what a sequence of conversions stores can be
said of the words alone (`convert_words`).

`%d` is to `%lu` as `strtol` is to `strtoul`: both read a decimal number back.
-/

namespace Ossim.Machine.Scan

/-- The words of a text. -/
def words (s : List Char) : List (List Char) := (s.splitOnP isSpace).filter (· ≠ [])

/-! ### Signed numbers -/

/-- `strtol` for base ten, of a sign and digits. A number that is too large or too small gives the
largest or the smallest. -/
def strtol (w : ℕ) (minus : Bool) (digits : List Char) : BitVec w :=
  let n := Nat.ofDigitChars 10 digits 0
  if minus then (if 2 ^ (w - 1) < n then BitVec.intMin w else -BitVec.ofNat w n)
  else if 2 ^ (w - 1) ≤ n then BitVec.intMax w else BitVec.ofNat w n

/-- `%d`, where `long` has `w` bits and `int` its low `v`: the number, or `none`, and what is left. -/
def integer (w v : ℕ) (s : List Char) : Option (BitVec v) × List Char :=
  let (minus, t) := sign (skipSpace s)
  (if t.takeWhile Char.isDigit = [] then none
    else some ((strtol w minus (t.takeWhile Char.isDigit)).setWidth v), t.dropWhile Char.isDigit)

/-! ### Conversions -/

/-- A conversion: what it stores, if anything, and what it leaves. -/
abbrev Conversion (α : Type*) := List Char → Option α × List Char

variable {α : Type*}

/-- `fscanf` with `n` times the same conversion, with or without white space before, between and
after them: what is stored, and what is left. -/
def convert (conv : Conversion α) : ℕ → List Char → List α × List Char
  | 0, s => ([], skipSpace s)
  | n + 1, s =>
    match conv (skipSpace s) with
    | (none, t) => ([], t)
    | (some v, t) => (v :: (convert conv n t).1, (convert conv n t).2)

/-- The conversion takes the word that is printed for a value, and stores the value. -/
def Reads (conv : Conversion α) (print : α → List Char) (v : α) : Prop :=
  ∀ s t, skipSpace s = print v ++ t → (∀ c ∈ t.head?, isSpace c = true) → conv s = (some v, t)

/-! ### The words of a text -/

variable {s t x : List Char} {ws : List (List Char)} {c : Char}

@[simp] theorem words_nil : words [] = [] := rfl

theorem words_cons_of_isSpace (h : isSpace c = true) (s : List Char) : words (c :: s) = words s := by
  rw [words, List.splitOnP_cons_eq_if_modifyHead, if_pos h]
  rfl

theorem words_skipSpace (s : List Char) : words (skipSpace s) = words s := by
  induction s with
  | nil => rfl
  | cons c s ih =>
    cases h : isSpace c
    · rw [skipSpace_cons h]
    · rw [words_cons_of_isSpace h, ← ih, skipSpace, skipSpace, List.dropWhile_cons_of_pos h]

/-- A word, and the words of what comes after it. -/
theorem words_append (hx : x ≠ []) (hall : ∀ c ∈ x, isSpace c = false)
    (ht : ∀ c ∈ t.head?, isSpace c = true) : words (x ++ t) = x :: words t := by
  cases t with
  | nil => simp [words, List.splitOnP_eq_singleton hall, hx]
  | cons c t =>
    have hc : isSpace c = true := ht c rfl
    rw [words_cons_of_isSpace hc, words, List.splitOnP_append_cons_of_forall_mem hall c hc]
    simp [words, hx]

/-- Text that does not begin with white space begins with a word. -/
theorem exists_word (hs : skipSpace s ≠ []) :
    ∃ x t, skipSpace s = x ++ t ∧ x ≠ [] ∧ (∀ c ∈ x, isSpace c = false) ∧
      ∀ c ∈ t.head?, isSpace c = true := by
  refine ⟨(skipSpace s).takeWhile (!isSpace ·), (skipSpace s).dropWhile (!isSpace ·),
    List.takeWhile_append_dropWhile.symm, ?_, ?_, ?_⟩
  · obtain ⟨c, u, hu⟩ := List.exists_cons_of_ne_nil hs
    have hc : isSpace c = false := by
      have hhead := List.head?_dropWhile_not isSpace s
      rw [← skipSpace, hu] at hhead
      simpa using hhead
    simp [hu, hc]
  · intro c hc
    have hall := List.all_takeWhile (p := (!isSpace ·)) (l := skipSpace s)
    simpa using List.all_eq_true.mp hall c hc
  · intro c hc
    have hhead := List.head?_dropWhile_not (!isSpace ·) (skipSpace s)
    rw [Option.mem_def.mp hc] at hhead
    simpa using hhead

/-- Where the first word of a text is. -/
theorem words_eq_cons (h : words s = x :: ws) :
    ∃ t, skipSpace s = x ++ t ∧ x ≠ [] ∧ (∀ c ∈ x, isSpace c = false) ∧
      (∀ c ∈ t.head?, isSpace c = true) ∧ words t = ws := by
  have hs : skipSpace s ≠ [] := by
    intro hnil
    rw [← words_skipSpace, hnil] at h
    cases h
  obtain ⟨y, t, hy, hne, hall, ht⟩ := exists_word hs
  have hwords := words_append hne hall ht
  rw [← hy, words_skipSpace, h] at hwords
  obtain ⟨rfl, rfl⟩ := List.cons.inj hwords
  exact ⟨t, hy, hne, hall, ht, rfl⟩

theorem word_of_words (h : words s = x :: ws) : ∃ t, word s = some (x, t) ∧ words t = ws := by
  obtain ⟨t, hs, hne, hall, ht, rfl⟩ := words_eq_cons h
  exact ⟨t, word_of_skipSpace hs hne hall ht, rfl⟩

/-! ### Conversions of words -/

theorem Reads.of_words {conv : Conversion α} {print : α → List Char} {v : α}
    (hv : Reads conv print v) (h : words s = print v :: ws) :
    ∃ t, conv s = (some v, t) ∧ words t = ws := by
  obtain ⟨t, hs, -, -, ht, rfl⟩ := words_eq_cons h
  exact ⟨t, hv s t hs ht, rfl⟩

/-- **A sequence of conversions reads what is printed, in any layout.** -/
theorem convert_words {conv : Conversion α} {print : α → List Char} (vs : List α)
    (hvs : ∀ v ∈ vs, Reads conv print v) (h : words s = vs.map print ++ ws) :
    (convert conv vs.length s).1 = vs ∧ words (convert conv vs.length s).2 = ws := by
  induction vs generalizing s with
  | nil => exact ⟨rfl, (words_skipSpace s).trans h⟩
  | cons v vs ih =>
    obtain ⟨t, ht, hwords⟩ := (hvs v List.mem_cons_self).of_words (s := skipSpace s)
      ((words_skipSpace s).trans h)
    obtain ⟨hrest, hleft⟩ := ih (fun u hu => hvs u (List.mem_cons_of_mem v hu)) hwords
    rw [List.length_cons, convert, ht]
    exact ⟨congrArg (v :: ·) hrest, hleft⟩

theorem not_isDigit_of_isSpace (h : isSpace c = true) : c.isDigit = false := by
  cases hc : c.isDigit with
  | false => rfl
  | true =>
    rw [isSpace_of_isDigit hc] at h
    cases h

theorem reads_number {w : ℕ} (v : BitVec w) : Reads (number w) (fun v => decimal v.toNat) v := by
  intro s t hs ht
  rw [number_decimal v.isLt hs fun c hc => not_isDigit_of_isSpace (ht c hc), BitVec.ofNat_toNat,
    BitVec.setWidth_eq]

theorem strtol_decimal {w n : ℕ} (h : n < 2 ^ (w - 1)) :
    strtol w false (decimal n) = BitVec.ofNat w n := by
  simp [strtol, decimal, Nat.ofDigitChars_ten_toDigits, Nat.not_le_of_lt h]

/-- An `int` that is printed without a sign is read back, whatever its sign. -/
theorem reads_integer {w v : ℕ} (hv : v < w) (n : BitVec v) :
    Reads (integer w v) (fun n => decimal n.toNat) n := by
  intro s t hs ht
  have hlt : n.toNat < 2 ^ (w - 1) :=
    Nat.lt_of_lt_of_le n.isLt (Nat.pow_le_pow_right (by omega) (by omega))
  have hsign : sign (decimal n.toNat ++ t) = (false, decimal n.toNat ++ t) := by
    obtain ⟨c, ds, hd, hc⟩ := decimal_eq_cons n.toNat
    rw [hd]
    exact sign_of_isDigit hc _
  obtain ⟨htake, hdrop⟩ := span_append (p := Char.isDigit) (x := decimal n.toNat) (t := t)
    (fun c hc => isDigit_of_mem_decimal hc) fun c hc => not_isDigit_of_isSpace (ht c hc)
  have hback : (BitVec.ofNat w n.toNat).setWidth v = n := by
    apply BitVec.eq_of_toNat_eq
    have hw : n.toNat < 2 ^ w :=
      Nat.lt_of_lt_of_le hlt (Nat.pow_le_pow_right (by omega) (by omega))
    rw [BitVec.toNat_setWidth, BitVec.toNat_ofNat, Nat.mod_eq_of_lt hw, Nat.mod_eq_of_lt n.isLt]
  simp only [integer, hs, hsign, htake, hdrop, if_neg (decimal_ne_nil _), strtol_decimal hlt, hback]

/-- A word that is no number stops a conversion. -/
theorem number_of_word {w : ℕ} (h : words s = x :: ws)
    (hx : ∀ c ∈ x.head?, c.isDigit = false ∧ c ≠ '-' ∧ c ≠ '+') :
    ∃ t, number w s = (none, t) ∧ words t = x :: ws := by
  obtain ⟨t, hs, hne, hall, ht, rfl⟩ := words_eq_cons h
  obtain ⟨c, u, rfl⟩ := List.exists_cons_of_ne_nil hne
  obtain ⟨hdigit, hminus, hplus⟩ := hx c rfl
  have hsign : sign (c :: u ++ t) = (false, c :: u ++ t) :=
    sign.eq_3 _ (by simpa using hminus) (by simpa using hplus)
  refine ⟨c :: u ++ t, ?_, words_append hne hall ht⟩
  simp [number, hs, sign.eq_3, hminus, hplus, hdigit]

end Ossim.Machine.Scan
