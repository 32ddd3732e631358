import Mathlib.Algebra.Ring.Int.Defs
import Mathlib.Algebra.Ring.Nat
import Mathlib.Data.Int.Order.Basic
import Mathlib.Data.List.Basic
import Mathlib.Data.List.TakeWhile
import Mathlib.Tactic.Common

/-!
# Reading from a character stream

The part of the input streams of the C++ standard library that line-oriented text readers
use: `getline`, extraction of words and of decimal integers, and `stoi`.  A stream is the
characters not yet read with the two state bits; a text is a list of characters, one for
each byte, in the "C" locale.

What a failing read leaves in its variable is part of the behaviour, so every extraction
takes the old value.  A read from a stream that is not good, or that has nothing but white
space left, leaves the variable alone; a read that finds no number stores 0, and one that
finds a number out of range stores the nearest bound (the rules since C++11).

* `getline_line` and `getline_last`: the first reads of a good stream, line by line.
* `Numeral`: a number at the front of a text, as a decomposition of the text; `numeral_iff`
  connects it to the scanner.
* `field_cases`: the four things that a read of an unsigned number may find, with one lemma
  each on what it does then (`extractUnsigned_number` and so on).
* `Decimal`: a number written with digits only, which is read as itself.
-/

namespace Istream

/-- The unread characters and the state bits of a stream. -/
structure Stream where
  rest : List Char
  eofbit : Bool
  failbit : Bool
  deriving DecidableEq

/-- A stream on a text. -/
def ofText (text : List Char) : Stream := ⟨text, false, false⟩

/-- `good()`. -/
def Stream.good (s : Stream) : Bool := !s.eofbit && !s.failbit

/-- `isspace`. -/
def isSpace (c : Char) : Bool :=
  c == ' ' || c == '\t' || c == '\n' || c == '\x0b' || c == '\x0c' || c == '\r'

/-- `getline`: the stream and the line variable after it. -/
def getline (s : Stream) (line : List Char) : Stream × List Char :=
  if s.good = true then
    let taken := s.rest.takeWhile (· != '\n')
    match s.rest.dropWhile (· != '\n') with
    | _ :: rest => (⟨rest, false, false⟩, taken)
    | [] => (⟨[], true, taken.isEmpty⟩, taken)
  else ({ s with failbit := true }, line)

/-- The sentry of a formatted read: skip white space, and say whether to go on. -/
def sentry (s : Stream) : Stream × Bool :=
  if s.good = true then
    match s.rest.dropWhile isSpace with
    | [] => (⟨[], true, true⟩, false)
    | rest => (⟨rest, false, false⟩, true)
  else ({ s with failbit := true }, false)

/-- `>>` into a `string`. -/
def extractWord (s : Stream) (word : List Char) : Stream × List Char :=
  match sentry s with
  | (s, false) => (s, word)
  | (s, true) =>
    let rest := s.rest.dropWhile fun c => !isSpace c
    (⟨rest, rest.isEmpty, false⟩, s.rest.takeWhile fun c => !isSpace c)

/-- The optional sign at the front of a text, and what follows. -/
def scanSign : List Char → Bool × List Char
  | '-' :: text => (true, text)
  | '+' :: text => (false, text)
  | text => (false, text)

/-- The sign, the digits after it, and what follows. -/
def scanNumber (text : List Char) : Bool × List Char × List Char :=
  let (negative, text) := scanSign text
  (negative, text.takeWhile Char.isDigit, text.dropWhile Char.isDigit)

/-- The value of a word of decimal digits. -/
def decimalValue (digits : List Char) : ℕ := Nat.ofDigitChars 10 digits 0

/-- The `uint32_t` that is stored for a scanned number: the largest one when the number is
too large, and otherwise the number, which a minus sign negates modulo `2 ^ 32`. -/
def unsignedValue (negative : Bool) (digits : List Char) : ℕ :=
  let value := decimalValue digits
  if 2 ^ 32 ≤ value then 2 ^ 32 - 1
  else if negative = true then (2 ^ 32 - value) % 2 ^ 32
  else value

/-- `>>` into a `uint32_t`. -/
def extractUnsigned (s : Stream) (old : ℕ) : Stream × ℕ :=
  match sentry s with
  | (s, false) => (s, old)
  | (s, true) =>
    let (negative, digits, rest) := scanNumber s.rest
    if digits = [] then (⟨rest, rest.isEmpty, true⟩, 0)
    else
      (⟨rest, rest.isEmpty, decide (2 ^ 32 ≤ decimalValue digits)⟩, unsignedValue negative digits)

/-- The signed value of a scanned number. -/
def signedValue (negative : Bool) (digits : List Char) : ℤ :=
  if negative = true then -(decimalValue digits : ℤ) else decimalValue digits

/-- `>>` into an `int32_t`. -/
def extractInt (s : Stream) (old : ℤ) : Stream × ℤ :=
  match sentry s with
  | (s, false) => (s, old)
  | (s, true) =>
    let (negative, digits, rest) := scanNumber s.rest
    let value := signedValue negative digits
    if digits = [] then (⟨rest, rest.isEmpty, true⟩, 0)
    else if 2 ^ 31 ≤ value then (⟨rest, rest.isEmpty, true⟩, 2 ^ 31 - 1)
    else if value < -2 ^ 31 then (⟨rest, rest.isEmpty, true⟩, -2 ^ 31)
    else (⟨rest, rest.isEmpty, false⟩, value)

/-- `stoi`; `none` is the exception for a text without a number or with one out of range. -/
def stoi (text : List Char) : Option ℤ :=
  let (negative, digits, _) := scanNumber (text.dropWhile isSpace)
  let value := signedValue negative digits
  if digits = [] then none
  else if 2 ^ 31 ≤ value ∨ value < -2 ^ 31 then none
  else some value

variable {s : Stream} {line text blanks digits rest : List Char} {old value : ℕ} {c : Char}
  {negative : Bool}

/-! ## Where a scan stops -/

section Stop

variable {α : Type*} {p : α → Bool} {l r : List α}

theorem takeWhile_append_stop (hl : ∀ c ∈ l, p c = true) (hr : ∀ c ∈ r.head?, p c = false) :
    (l ++ r).takeWhile p = l := by
  rw [List.takeWhile_append_of_pos hl]
  cases r with
  | nil => rw [List.takeWhile_nil, List.append_nil]
  | cons c r =>
    rw [List.takeWhile_cons_of_neg (by rw [hr c rfl]; exact Bool.false_ne_true), List.append_nil]

theorem dropWhile_append_stop (hl : ∀ c ∈ l, p c = true) (hr : ∀ c ∈ r.head?, p c = false) :
    (l ++ r).dropWhile p = r := by
  rw [List.dropWhile_append_of_pos hl]
  cases r with
  | nil => rw [List.dropWhile_nil]
  | cons c r => rw [List.dropWhile_cons_of_neg (by rw [hr c rfl]; exact Bool.false_ne_true)]

/-- The first character of a text is the first one of its first word. -/
theorem forall_mem_head_append {P : α → Prop} (hne : l ≠ []) (h : ∀ c ∈ l, P c) :
    ∀ c ∈ (l ++ r).head?, P c := by
  obtain ⟨d, l, rfl⟩ := List.exists_cons_of_ne_nil hne
  intro c hc
  obtain rfl : d = c := Option.some.inj hc
  exact h d List.mem_cons_self

end Stop

/-! ## Lines -/

theorem bne_newline (hline : '\n' ∉ line) : ∀ c ∈ line, (c != '\n') = true := by
  intro c hc
  rw [bne_iff_ne]
  exact fun h => hline (h ▸ hc)

theorem newline_stops (rest : List Char) : ∀ c ∈ ('\n' :: rest).head?, (c != '\n') = false := by
  intro c hc
  obtain rfl : '\n' = c := Option.some.inj hc
  rfl

theorem takeWhile_line (hline : '\n' ∉ line) (rest : List Char) :
    (line ++ '\n' :: rest).takeWhile (· != '\n') = line :=
  takeWhile_append_stop (bne_newline hline) (newline_stops rest)

theorem takeWhile_last (hline : '\n' ∉ line) : line.takeWhile (· != '\n') = line :=
  List.takeWhile_eq_self_iff.mpr (bne_newline hline)

/-- A line that is followed by another one. -/
theorem getline_line (hline : '\n' ∉ line) (rest old : List Char) :
    getline (ofText (line ++ '\n' :: rest)) old = (ofText rest, line) := by
  have hdrop : (line ++ '\n' :: rest).dropWhile (· != '\n') = '\n' :: rest :=
    dropWhile_append_stop (bne_newline hline) (newline_stops rest)
  have hgood : (ofText (line ++ '\n' :: rest)).good = true := rfl
  unfold getline
  rw [if_pos hgood]
  simp only [ofText, takeWhile_line hline, hdrop]

/-- The last line. -/
theorem getline_last (hline : '\n' ∉ line) (old : List Char) :
    getline (ofText line) old = (⟨[], true, line.isEmpty⟩, line) := by
  have hdrop : line.dropWhile (· != '\n') = [] :=
    List.dropWhile_eq_nil_iff.mpr (bne_newline hline)
  have hgood : (ofText line).good = true := rfl
  unfold getline
  rw [if_pos hgood]
  simp only [ofText, takeWhile_last hline, hdrop]

/-! ## Numbers -/

/-- Nothing but white space. -/
def Blank (text : List Char) : Prop := ∀ c ∈ text, isSpace c = true

/-- A sign in front of the digits, and whether it is a minus. -/
inductive Sign : List Char → Bool → Prop
  | none : Sign [] false
  | plus : Sign ['+'] false
  | minus : Sign ['-'] true

/-- At the front of a text stand white space, a sign or none, and digits, as many as there
are; `rest` follows. -/
structure Numeral (text : List Char) (negative : Bool) (digits rest : List Char) : Prop where
  split : ∃ blanks sign, Blank blanks ∧ Sign sign negative ∧
    text = blanks ++ (sign ++ (digits ++ rest))
  ne_nil : digits ≠ []
  isDigit : ∀ c ∈ digits, c.isDigit = true
  maximal : ∀ c ∈ rest.head?, c.isDigit = false

theorem isSpace_of_isDigit (h : c.isDigit = true) : isSpace c = false := by
  rw [← Bool.not_eq_true]
  intro hspace
  simp only [isSpace, Bool.or_eq_true, beq_iff_eq] at hspace
  rcases hspace with ((((rfl | rfl) | rfl) | rfl) | rfl) | rfl
  all_goals exact absurd h (by decide)

theorem scanSign_sign {sign : List Char} (hsign : Sign sign negative)
    (hrest : ∀ c ∈ rest.head?, c.isDigit = true) : scanSign (sign ++ rest) = (negative, rest) := by
  cases hsign with
  | plus => rfl
  | minus => rfl
  | none =>
    rw [List.nil_append]
    unfold scanSign
    split
    · exact absurd (hrest '-' rfl) (by decide)
    · exact absurd (hrest '+' rfl) (by decide)
    · rfl

theorem exists_sign_of_scanSign (text : List Char) :
    ∃ sign, Sign sign (scanSign text).1 ∧ text = sign ++ (scanSign text).2 := by
  unfold scanSign
  split
  · exact ⟨['-'], Sign.minus, rfl⟩
  · exact ⟨['+'], Sign.plus, rfl⟩
  · exact ⟨[], Sign.none, rfl⟩

/-- The scanner finds the sign and the digits. -/
theorem scanNumber_sign {sign : List Char} (hsign : Sign sign negative) (hne : digits ≠ [])
    (hd : ∀ c ∈ digits, c.isDigit = true) (hrest : ∀ c ∈ rest.head?, c.isDigit = false) :
    scanNumber (sign ++ (digits ++ rest)) = (negative, digits, rest) := by
  unfold scanNumber
  rw [scanSign_sign hsign (forall_mem_head_append hne hd)]
  simp only [takeWhile_append_stop hd hrest, dropWhile_append_stop hd hrest]

/-- A space is no sign and no digit. -/
theorem not_isSpace_of_sign {sign : List Char} (hsign : Sign sign negative) (hne : digits ≠ [])
    (hd : ∀ c ∈ digits, c.isDigit = true) :
    ∀ c ∈ (sign ++ (digits ++ rest)).head?, isSpace c = false := by
  intro c hc
  cases hsign with
  | none => exact isSpace_of_isDigit (forall_mem_head_append hne hd c hc)
  | plus =>
    obtain rfl : '+' = c := Option.some.inj hc
    decide
  | minus =>
    obtain rfl : '-' = c := Option.some.inj hc
    decide

/-- **The scanner finds a number exactly when one is there.** -/
theorem numeral_iff : Numeral text negative digits rest ↔
    digits ≠ [] ∧ scanNumber (text.dropWhile isSpace) = (negative, digits, rest) := by
  constructor
  · rintro ⟨⟨blanks, sign, hblanks, hsign, rfl⟩, hne, hd, hrest⟩
    rw [dropWhile_append_stop hblanks (not_isSpace_of_sign hsign hne hd)]
    exact ⟨hne, scanNumber_sign hsign hne hd hrest⟩
  · rintro ⟨hne, hscan⟩
    obtain ⟨sign, hsign, htext⟩ := exists_sign_of_scanSign (text.dropWhile isSpace)
    unfold scanNumber at hscan
    simp only [Prod.mk.injEq] at hscan
    obtain ⟨hneg, hdigits, hafter⟩ := hscan
    refine ⟨⟨text.takeWhile isSpace, sign, fun c hc => List.mem_takeWhile_imp hc, hneg ▸ hsign, ?_⟩,
      hne, fun c hc => ?_, fun c hc => ?_⟩
    · rw [← hdigits, ← hafter, List.takeWhile_append_dropWhile, ← htext,
        List.takeWhile_append_dropWhile]
    · exact List.mem_takeWhile_imp (hdigits.symm ▸ hc)
    · have hnot := List.head?_dropWhile_not Char.isDigit (scanSign (text.dropWhile isSpace)).2
      rw [hafter, Option.mem_def.mp hc] at hnot
      exact hnot

/-- The sentry stops at the first character that is no white space. -/
theorem sentry_ofText (hne : text.dropWhile isSpace ≠ []) :
    sentry (ofText text) = (ofText (text.dropWhile isSpace), true) := by
  have hgood : (ofText text).good = true := rfl
  unfold sentry
  rw [if_pos hgood]
  split
  · next heq => exact absurd heq hne
  · rfl

theorem sentry_blank (hnil : text.dropWhile isSpace = []) :
    sentry (ofText text) = (⟨[], true, true⟩, false) := by
  have hgood : (ofText text).good = true := rfl
  unfold sentry
  rw [if_pos hgood]
  split
  · rfl
  · next hnot => exact absurd hnil hnot

theorem Numeral.dropWhile_ne_nil (h : Numeral text negative digits rest) :
    text.dropWhile isSpace ≠ [] := by
  intro hnil
  obtain ⟨hne, hscan⟩ := numeral_iff.mp h
  rw [hnil] at hscan
  have hdigits : [] = digits := congrArg (fun r => r.2.1) hscan
  exact hne hdigits.symm

/-! ## What a read finds

A text is blank, or starts with no number, with a number that is too large, or with a number
that is stored. -/

/-- Something else than a number. -/
def NoNumber (text : List Char) : Prop :=
  ¬ Blank text ∧ ∀ negative digits rest, ¬ Numeral text negative digits rest

/-- A number that does not fit into 32 bits. -/
def TooLarge (text : List Char) : Prop :=
  ∃ negative digits rest, Numeral text negative digits rest ∧ 2 ^ 32 ≤ decimalValue digits

/-- A number that is stored as `value`. -/
def Number (text : List Char) (value : ℕ) (rest : List Char) : Prop :=
  ∃ negative digits, Numeral text negative digits rest ∧ decimalValue digits < 2 ^ 32 ∧
    unsignedValue negative digits = value

theorem field_cases (text : List Char) :
    Blank text ∨ NoNumber text ∨ TooLarge text ∨ ∃ value rest, Number text value rest := by
  by_cases hblank : Blank text
  · exact Or.inl hblank
  · by_cases hnum : ∃ negative digits rest, Numeral text negative digits rest
    · obtain ⟨negative, digits, rest, h⟩ := hnum
      rcases Nat.lt_or_ge (decimalValue digits) (2 ^ 32) with hlt | hge
      · exact Or.inr (Or.inr (Or.inr ⟨_, rest, negative, digits, h, hlt, rfl⟩))
      · exact Or.inr (Or.inr (Or.inl ⟨negative, digits, rest, h, hge⟩))
    · push Not at hnum
      exact Or.inr (Or.inl ⟨hblank, hnum⟩)

theorem dropWhile_eq_nil_iff_blank : text.dropWhile isSpace = [] ↔ Blank text :=
  List.dropWhile_eq_nil_iff

theorem extractUnsigned_numeral (h : Numeral text negative digits rest) (old : ℕ) :
    extractUnsigned (ofText text) old =
      (⟨rest, rest.isEmpty, decide (2 ^ 32 ≤ decimalValue digits)⟩,
        unsignedValue negative digits) := by
  unfold extractUnsigned
  rw [sentry_ofText h.dropWhile_ne_nil]
  simp only [ofText, (numeral_iff.mp h).2]
  rw [if_neg h.ne_nil]

theorem extractUnsigned_number (h : Number text value rest) (old : ℕ) :
    extractUnsigned (ofText text) old = (⟨rest, rest.isEmpty, false⟩, value) := by
  obtain ⟨negative, digits, hnum, hlt, rfl⟩ := h
  have hfit : decide (2 ^ 32 ≤ decimalValue digits) = false := decide_eq_false (by omega)
  rw [extractUnsigned_numeral hnum, hfit]

theorem extractUnsigned_tooLarge (h : TooLarge text) (old : ℕ) :
    (extractUnsigned (ofText text) old).1.failbit = true ∧
      (extractUnsigned (ofText text) old).2 = 2 ^ 32 - 1 := by
  obtain ⟨negative, digits, rest, hnum, hge⟩ := h
  rw [extractUnsigned_numeral hnum, unsignedValue]
  simp only
  rw [if_pos hge]
  exact ⟨decide_eq_true hge, rfl⟩

theorem extractUnsigned_noNumber (h : NoNumber text) (old : ℕ) :
    (extractUnsigned (ofText text) old).1.failbit = true ∧
      (extractUnsigned (ofText text) old).2 = 0 := by
  have hdigits : (scanNumber (text.dropWhile isSpace)).2.1 = [] := by
    by_contra hne
    exact h.2 _ _ _ (numeral_iff.mpr ⟨hne, rfl⟩)
  unfold extractUnsigned
  rw [sentry_ofText (dropWhile_eq_nil_iff_blank.not.mpr h.1)]
  simp only [ofText, hdigits]
  exact ⟨rfl, rfl⟩

theorem extractUnsigned_blank (h : Blank text) (old : ℕ) :
    (extractUnsigned (ofText text) old).1.failbit = true ∧
      (extractUnsigned (ofText text) old).2 = old := by
  unfold extractUnsigned
  rw [sentry_blank (dropWhile_eq_nil_iff_blank.mpr h)]
  exact ⟨rfl, rfl⟩

/-- A read from a stream that has failed leaves the variable alone. -/
theorem extractUnsigned_failed (h : s.failbit = true) (old : ℕ) :
    (extractUnsigned s old).2 = old := by
  have hbad : ¬ s.good = true := by simp [Stream.good, h]
  unfold extractUnsigned sentry
  rw [if_neg hbad]

/-- After a number the next read goes on in the text behind it. -/
theorem extractUnsigned_resume (rest : List Char) (old : ℕ) :
    extractUnsigned ⟨rest, rest.isEmpty, false⟩ old = extractUnsigned (ofText rest) old := by
  cases rest with
  | nil => rfl
  | cons c rest => rfl

/-! ## Numbers in plain decimal -/

/-- A nonempty word of decimal digits with a given value. -/
structure Decimal (digits : List Char) (value : ℕ) : Prop where
  ne_nil : digits ≠ []
  isDigit : ∀ c ∈ digits, c.isDigit = true
  value_eq : decimalValue digits = value

/-- Every number is written in decimal. -/
theorem decimal_toDigits (n : ℕ) : Decimal (Nat.toDigits 10 n) n where
  ne_nil := Nat.toDigits_ne_nil
  isDigit := fun _ hc => Nat.isDigit_of_mem_toDigits (by decide) (by decide) hc
  value_eq := Nat.ofDigitChars_ten_toDigits

theorem Decimal.numeral (hd : Decimal digits value) (hblanks : Blank blanks)
    (hrest : ∀ c ∈ rest.head?, c.isDigit = false) :
    Numeral (blanks ++ (digits ++ rest)) false digits rest where
  split := ⟨blanks, [], hblanks, Sign.none, rfl⟩
  ne_nil := hd.ne_nil
  isDigit := hd.isDigit
  maximal := hrest

/-- A decimal number in range is read as itself. -/
theorem Decimal.number (hd : Decimal digits value) (hlt : value < 2 ^ 32) (hblanks : Blank blanks)
    (hrest : ∀ c ∈ rest.head?, c.isDigit = false) :
    Number (blanks ++ (digits ++ rest)) value rest := by
  refine ⟨false, digits, hd.numeral hblanks hrest, by rw [hd.value_eq]; exact hlt, ?_⟩
  unfold unsignedValue
  rw [hd.value_eq]
  simp only
  rw [if_neg (by omega), if_neg Bool.false_ne_true]

theorem extractInt_decimal {old : ℤ} (hd : Decimal digits value) (hlt : value < 2 ^ 31)
    (hblanks : Blank blanks) (hrest : ∀ c ∈ rest.head?, c.isDigit = false) :
    extractInt (ofText (blanks ++ (digits ++ rest))) old =
      (⟨rest, rest.isEmpty, false⟩, (value : ℤ)) := by
  have hnum := hd.numeral hblanks hrest
  have hvalue : signedValue false digits = value := by
    rw [signedValue, if_neg Bool.false_ne_true, hd.value_eq]
  unfold extractInt
  rw [sentry_ofText hnum.dropWhile_ne_nil]
  simp only [ofText, (numeral_iff.mp hnum).2, hvalue]
  rw [if_neg hd.ne_nil, if_neg (by omega), if_neg (by omega)]

/-- `stoi` converts a decimal number in range to its value. -/
theorem stoi_decimal (hd : Decimal digits value) (hlt : value < 2 ^ 31) :
    stoi digits = some (value : ℤ) := by
  have hnum : Numeral ([] ++ (digits ++ [])) false digits [] :=
    hd.numeral (fun _ hc => absurd hc List.not_mem_nil)
      fun c hc => absurd hc (Option.not_mem_none c)
  rw [List.nil_append, List.append_nil] at hnum
  have hvalue : signedValue false digits = value := by
    rw [signedValue, if_neg Bool.false_ne_true, hd.value_eq]
  unfold stoi
  simp only [(numeral_iff.mp hnum).2, hvalue]
  rw [if_neg hd.ne_nil, if_neg (by omega)]

/-- A word that ends before white space. -/
theorem extractWord_word (blanks word : List Char) (hblanks : Blank blanks)
    (hne : word ≠ []) (hword : ∀ c ∈ word, isSpace c = false) (hc : isSpace c = true)
    (old : List Char) :
    extractWord (ofText (blanks ++ (word ++ c :: rest))) old = (ofText (c :: rest), word) := by
  have hletters : ∀ d ∈ word, (!isSpace d) = true := fun d hd => by rw [hword d hd]; rfl
  have hend : ∀ d ∈ (c :: rest).head?, (!isSpace d) = false := by
    intro d hd
    obtain rfl : c = d := Option.some.inj hd
    rw [hc]
    rfl
  have hstart : ∀ d ∈ (word ++ c :: rest).head?, isSpace d = false :=
    forall_mem_head_append hne hword
  have hblank : (blanks ++ (word ++ c :: rest)).dropWhile isSpace = word ++ c :: rest :=
    dropWhile_append_stop hblanks hstart
  unfold extractWord
  rw [sentry_ofText (by rw [hblank]; exact List.append_ne_nil_of_left_ne_nil hne _), hblank]
  simp only [ofText, takeWhile_append_stop hletters hend, dropWhile_append_stop hletters hend]
  rfl

end Istream
