import Mathlib.Algebra.Group.Nat.Defs
import Mathlib.Data.Nat.Notation

/-!
# Reading a text

What `fscanf`, `sscanf` and `fgets` take from a text and what they leave of it. The text is a
list of characters; a format is a list of directives, and the first one that fails ends the call.

Numbers printed one after the other, each behind a blank, are read back by every format that
has as many directives for numbers, wherever white space stands in it (`scanf_fields`).
-/

namespace Ossim.Machine.Scan

/-! ### White space and words -/

/-- `isspace`. -/
def isSpace (c : Char) : Bool := c = ' ' || ('\t' ≤ c && c ≤ '\r')

/-- What is left when white space has been taken. -/
def skipSpace (s : List Char) : List Char := s.dropWhile isSpace

/-- `%s`: the word and what is left, or `none` at the end of the text. -/
def word (s : List Char) : Option (List Char × List Char) :=
  if skipSpace s = [] then none
  else some ((skipSpace s).takeWhile (!isSpace ·), (skipSpace s).dropWhile (!isSpace ·))

/-- What a string ends before: its first null character. -/
def cString (s : List Char) : List Char := s.takeWhile (· ≠ '\x00')

/-! ### Numbers -/

/-- Whether a number has a minus, and what is left after its sign. -/
def sign : List Char → Bool × List Char
  | '-' :: s => (true, s)
  | '+' :: s => (false, s)
  | s => (false, s)

/-- `strtoul` for base ten, of a sign and digits. A number that is too large gives the largest. -/
def strtoul (w : ℕ) (minus : Bool) (digits : List Char) : BitVec w :=
  let n := Nat.ofDigitChars 10 digits 0
  if 2 ^ w ≤ n then BitVec.allOnes w
  else if minus then -BitVec.ofNat w n else BitVec.ofNat w n

/-- `%lu`, where `unsigned long` has `w` bits: the number, or `none`, and what is left. A sign is
taken even if no digit comes after it. -/
def number (w : ℕ) (s : List Char) : Option (BitVec w) × List Char :=
  let (minus, t) := sign (skipSpace s)
  (if t.takeWhile Char.isDigit = [] then none
    else some (strtoul w minus (t.takeWhile Char.isDigit)), t.dropWhile Char.isDigit)

/-- A directive of a format. -/
inductive Directive where
  /-- White space. -/
  | space
  /-- `%lu`. -/
  | number
  deriving DecidableEq

/-- `fscanf` and `sscanf`: the numbers stored, and what is left of the text. -/
def scanf (w : ℕ) : List Directive → List Char → List (BitVec w) × List Char
  | [], s => ([], s)
  | .space :: fmt, s => scanf w fmt (skipSpace s)
  | .number :: fmt, s =>
    match number w s with
    | (none, s) => ([], s)
    | (some v, s) => (v :: (scanf w fmt s).1, (scanf w fmt s).2)

/-! ### Lines -/

/-- The line a text begins with, and what is left; or its first `n` characters, if the line has
more. -/
def takeLine : ℕ → List Char → List Char × List Char
  | 0, s => ([], s)
  | _ + 1, [] => ([], [])
  | n + 1, c :: s =>
    if c = '\n' then ([c], s) else (c :: (takeLine n s).1, (takeLine n s).2)

/-- `fgets` into an array of `size` characters: what it stores before the null character and what
is left of the text, or `none` at its end, where it stores nothing. -/
def fgets (size : ℕ) (s : List Char) : Option (List Char × List Char) :=
  if s = [] then none else some (takeLine (size - 1) s)

/-! ### Printing -/

/-- `%lu` of `printf`. -/
def decimal (n : ℕ) : List Char := Nat.toDigits 10 n

/-- Numbers, each behind a blank. -/
def fields {w : ℕ} (vs : List (BitVec w)) : List Char := vs.flatMap fun v => ' ' :: decimal v.toNat

/-! ### Lemmas -/

variable {w : ℕ} {c : Char} {s t : List Char}

theorem isSpace_of_isDigit (h : c.isDigit = true) : isSpace c = false := by
  simp only [Char.isDigit, Bool.and_eq_true, decide_eq_true_eq, ge_iff_le] at h
  have h₀ : 48 ≤ c.toNat := h.1
  simp only [isSpace, Bool.or_eq_false_iff, decide_eq_false_iff_not, Bool.and_eq_false_iff]
  refine ⟨?_, .inr fun hle => ?_⟩
  · rintro rfl
    simp at h₀
  · have h₁ : c.toNat ≤ 13 := hle
    omega

@[simp] theorem skipSpace_blank (s : List Char) : skipSpace (' ' :: s) = skipSpace s := rfl

@[simp] theorem skipSpace_newline (s : List Char) : skipSpace ('\n' :: s) = skipSpace s := rfl

theorem skipSpace_cons (h : isSpace c = false) (s : List Char) : skipSpace (c :: s) = c :: s := by
  simp [skipSpace, h]

@[simp] theorem skipSpace_skipSpace (s : List Char) : skipSpace (skipSpace s) = skipSpace s := by
  induction s with
  | nil => rfl
  | cons c s ih =>
    cases h : isSpace c
    · rw [skipSpace_cons h, skipSpace_cons h]
    · simpa [skipSpace, h] using ih

/-- A stretch of a text with a property, and what comes after it without. -/
theorem span_append {p : Char → Bool} {x : List Char} (hx : ∀ c ∈ x, p c = true)
    (ht : ∀ c ∈ t.head?, p c = false) :
    (x ++ t).takeWhile p = x ∧ (x ++ t).dropWhile p = t := by
  rw [List.takeWhile_append_of_pos hx, List.dropWhile_append_of_pos hx]
  cases t with
  | nil => simp
  | cons c t => simp [ht c rfl]

theorem cString_of_not_mem (h : '\x00' ∉ s) : cString s = s := by
  have hall : ∀ c ∈ s, decide (c ≠ '\x00') = true := fun c hc =>
    decide_eq_true (ne_of_mem_of_not_mem hc h)
  simpa [cString] using (span_append (t := []) hall (by simp)).1

/-- A word and what comes after it, where that is white space or nothing. -/
theorem word_of_skipSpace {x : List Char} (hs : skipSpace s = x ++ t) (hx : x ≠ [])
    (hall : ∀ c ∈ x, isSpace c = false) (ht : ∀ c ∈ t.head?, isSpace c = true) :
    word s = some (x, t) := by
  obtain ⟨htake, hdrop⟩ :=
    span_append (p := (!isSpace ·)) (x := x) (t := t) (by simpa using hall) (by simpa using ht)
  rw [word, hs, if_neg (by simp [hx]), htake, hdrop]

@[simp] theorem word_nil : word [] = none := rfl

/-! ### Decimal numbers -/

theorem isDigit_of_mem_decimal {n : ℕ} (h : c ∈ decimal n) : c.isDigit = true :=
  Nat.isDigit_of_mem_toDigits (by omega) (by omega) h

theorem decimal_ne_nil (n : ℕ) : decimal n ≠ [] := Nat.toDigits_ne_nil

theorem decimal_eq_cons (n : ℕ) : ∃ c ds, decimal n = c :: ds ∧ c.isDigit = true := by
  cases h : decimal n with
  | nil => exact absurd h (decimal_ne_nil n)
  | cons c ds => exact ⟨c, ds, rfl, isDigit_of_mem_decimal (n := n) (by simp [h])⟩

theorem skipSpace_decimal (n : ℕ) (t : List Char) :
    skipSpace (decimal n ++ t) = decimal n ++ t := by
  obtain ⟨c, ds, hd, hc⟩ := decimal_eq_cons n
  rw [hd]
  exact skipSpace_cons (isSpace_of_isDigit hc) _

theorem length_decimal_le {n k : ℕ} (hk : 0 < k) (h : n < 10 ^ k) : (decimal n).length ≤ k :=
  (Nat.length_toDigits_le_iff (by omega) hk).mpr h

theorem sign_of_isDigit (h : c.isDigit = true) (s : List Char) :
    sign (c :: s) = (false, c :: s) := by
  have hminus : c ≠ '-' := by rintro rfl; exact absurd h (by decide)
  have hplus : c ≠ '+' := by rintro rfl; exact absurd h (by decide)
  exact sign.eq_3 _ (by simpa using hminus) (by simpa using hplus)

theorem strtoul_decimal {n : ℕ} (h : n < 2 ^ w) :
    strtoul w false (decimal n) = BitVec.ofNat w n := by
  simp [strtoul, decimal, Nat.ofDigitChars_ten_toDigits, Nat.not_le_of_lt h]

/-- A number that has been printed is read back. -/
theorem number_decimal {n : ℕ} (hn : n < 2 ^ w) (hs : skipSpace s = decimal n ++ t)
    (ht : ∀ c ∈ t.head?, c.isDigit = false) : number w s = (some (BitVec.ofNat w n), t) := by
  have hsign : sign (decimal n ++ t) = (false, decimal n ++ t) := by
    obtain ⟨c, ds, hd, hc⟩ := decimal_eq_cons n
    rw [hd]
    exact sign_of_isDigit hc _
  obtain ⟨htake, hdrop⟩ :=
    span_append (p := Char.isDigit) (x := decimal n) (fun c hc => isDigit_of_mem_decimal hc) ht
  simp only [number, hs, hsign, htake, hdrop, if_neg (decimal_ne_nil n), strtoul_decimal hn]

@[simp] theorem fields_nil : fields ([] : List (BitVec w)) = [] := rfl

@[simp] theorem fields_cons (v : BitVec w) (vs : List (BitVec w)) :
    fields (v :: vs) = ' ' :: (decimal v.toNat ++ fields vs) := by
  simp [fields]

theorem mem_fields {vs : List (BitVec w)} (h : c ∈ fields vs) : c = ' ' ∨ c.isDigit = true := by
  obtain ⟨v, _, hc⟩ := List.mem_flatMap.mp h
  rcases List.mem_cons.mp hc with rfl | hc
  · exact .inl rfl
  · exact .inr (isDigit_of_mem_decimal hc)

theorem length_fields_le {k : ℕ} (hk : 0 < k) (hw : 2 ^ w ≤ 10 ^ k) (vs : List (BitVec w)) :
    (fields vs).length ≤ vs.length * (k + 1) := by
  induction vs with
  | nil => simp
  | cons v vs ih =>
    have hv := length_decimal_le hk (Nat.lt_of_lt_of_le v.isLt hw)
    rw [fields_cons, List.length_cons, List.length_append, List.length_cons, Nat.succ_mul]
    omega

theorem head?_fields_append {vs : List (BitVec w)} (ht : ∀ c ∈ t.head?, c.isDigit = false) :
    ∀ c ∈ (fields vs ++ t).head?, c.isDigit = false := by
  cases vs with
  | nil => simpa using ht
  | cons v vs => simp

/-- **Numbers that have been printed are read back** by a format with as many directives for
numbers; of what comes after them it takes at most white space. -/
theorem scanf_fields {fmt : List Directive} {vs : List (BitVec w)}
    (hfmt : fmt.count .number = vs.length) (ht : ∀ c ∈ t.head?, c.isDigit = false)
    (hs : skipSpace s = skipSpace (fields vs ++ t)) :
    (scanf w fmt s).1 = vs ∧ skipSpace (scanf w fmt s).2 = skipSpace t := by
  induction fmt generalizing s vs with
  | nil =>
    obtain rfl : vs = [] := List.eq_nil_of_length_eq_zero hfmt.symm
    exact ⟨rfl, hs⟩
  | cons d fmt ih =>
    cases d with
    | space => exact ih (by simpa using hfmt) (by simpa using hs)
    | number =>
      cases vs with
      | nil => simp at hfmt
      | cons v vs =>
        have hv : skipSpace s = decimal v.toNat ++ (fields vs ++ t) := by
          rw [hs, fields_cons, List.cons_append, List.append_assoc, skipSpace_blank,
            skipSpace_decimal]
        have hnumber := number_decimal v.isLt hv (head?_fields_append ht)
        have hcount : fmt.count .number = vs.length := by simpa using hfmt
        obtain ⟨hvs, hrest⟩ := ih (s := fields vs ++ t) hcount rfl
        simp only [scanf, hnumber, hvs, hrest, BitVec.ofNat_toNat, BitVec.setWidth_eq, and_self]

@[simp] theorem scanf_nil_text (fmt : List Directive) : scanf w fmt [] = ([], []) := by
  induction fmt with
  | nil => rfl
  | cons d fmt ih =>
    cases d with
    | space => exact ih
    | number => rfl

theorem length_scanf_le (fmt : List Directive) (s : List Char) :
    (scanf w fmt s).1.length ≤ fmt.count .number := by
  induction fmt generalizing s with
  | nil => simp [scanf]
  | cons d fmt ih =>
    cases d with
    | space => simpa [scanf] using ih (skipSpace s)
    | number =>
      rw [scanf]
      split
      · simp
      · simpa using ih _

/-! ### Lines that have been printed -/

@[simp] theorem takeLine_nil (n : ℕ) : takeLine n [] = ([], []) := by
  cases n <;> rfl

theorem takeLine_append {n : ℕ} (hn : s.length < n) (hs : '\n' ∉ s) (t : List Char) :
    takeLine n (s ++ '\n' :: t) = (s ++ ['\n'], t) := by
  induction s generalizing n with
  | nil =>
    obtain ⟨n, rfl⟩ : ∃ m, n = m + 1 := ⟨n - 1, by simp at hn; omega⟩
    simp [takeLine]
  | cons c s ih =>
    obtain ⟨n, rfl⟩ : ∃ m, n = m + 1 := ⟨n - 1, by simp at hn; omega⟩
    have hc : c ≠ '\n' := fun h => hs (by simp [h])
    have hrest := ih (n := n) (by simpa using hn) fun h => hs (List.mem_cons_of_mem c h)
    simp [takeLine, hc, hrest]

end Ossim.Machine.Scan
