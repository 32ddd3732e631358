import AFAnalyzer.Stream.Extraction

/-!
# Writing numbers to a character stream, and reading them back

`<<` writes an unsigned number in plain decimal.  A list of numbers is read back by the loop
`while (in >> x)`.  `Spelled` says that a text spells a list of numbers: each one in decimal
and in range, white space between them and anywhere around.  The loop reads such a text as
that list (`extractAll_spelled`), and a list written with a space after each number spells it
(`spelled_insertEach`).
-/

namespace Ostream

open Istream

/-- `<<` of an unsigned number. -/
def insertUnsigned (n : ℕ) : List Char := Nat.toDigits 10 n

/-- The numbers with a space between them. -/
def insertBetween : List ℕ → List Char
  | [] => []
  | x :: rest => insertUnsigned x ++ rest.flatMap fun y => ' ' :: insertUnsigned y

/-- The numbers with a space after each. -/
def insertEach (l : List ℕ) : List Char := l.flatMap fun x => insertUnsigned x ++ [' ']

/-- `while (in >> x)`: the numbers read until a read fails. -/
def extractAll : ℕ → Stream → List ℕ
  | 0, _ => []
  | fuel + 1, s =>
    let (s, x) := extractUnsigned s 0
    if s.failbit = true then [] else x :: extractAll fuel s

/-- The numbers at the front of a text. -/
def readNumbers (text : List Char) : List ℕ := extractAll (text.length + 1) (ofText text)

/-- The text spells the numbers. -/
inductive Spelled : List Char → List ℕ → Prop
  | nil {blanks : List Char} (blank : Blank blanks) : Spelled blanks []
  | cons {blanks digits rest : List Char} {value : ℕ} {values : List ℕ} (blank : Blank blanks)
      (decimal : Decimal digits value) (fits : value < 2 ^ 32)
      (ends : ∀ c ∈ rest.head?, c.isDigit = false) (others : Spelled rest values) :
      Spelled (blanks ++ (digits ++ rest)) (value :: values)

variable {text : List Char} {l : List ℕ} {x n : ℕ} {c : Char}

/-- **The loop reads what is spelled.** -/
theorem extractAll_spelled (h : Spelled text l) {fuel : ℕ} (hfuel : text.length < fuel) :
    extractAll fuel (ofText text) = l := by
  induction h generalizing fuel with
  | nil blank =>
    obtain ⟨fuel, rfl⟩ : ∃ k, fuel = k + 1 := ⟨fuel - 1, by omega⟩
    rw [extractAll]
    exact if_pos (extractUnsigned_blank blank 0).1
  | @cons blanks digits rest value values blank decimal fits ends _ ih =>
    obtain ⟨fuel, rfl⟩ : ∃ k, fuel = k + 1 := ⟨fuel - 1, by omega⟩
    have hdigits := List.length_pos_iff.mpr decimal.ne_nil
    rw [List.length_append, List.length_append] at hfuel
    obtain ⟨fuel, rfl⟩ : ∃ k, fuel = k + 1 := ⟨fuel - 1, by omega⟩
    have hread := extractUnsigned_number (decimal.number fits blank ends) 0
    have hresume : extractAll (fuel + 1) ⟨rest, rest.isEmpty, false⟩ =
        extractAll (fuel + 1) (ofText rest) := by
      rw [extractAll, extractAll, extractUnsigned_resume]
    rw [extractAll, hread]
    show (if false = true then [] else value :: extractAll (fuel + 1) ⟨rest, rest.isEmpty, false⟩) =
      value :: values
    rw [if_neg Bool.false_ne_true, hresume, ih (by omega)]

theorem readNumbers_spelled (h : Spelled text l) : readNumbers text = l :=
  extractAll_spelled h (Nat.lt_succ_self _)

/-! ## The two ways to write a list -/

theorem blank_nil : Blank [] := fun _ hc => absurd hc List.not_mem_nil

theorem blank_space : Blank [' '] := by
  intro c hc
  rw [List.mem_singleton.mp hc]
  rfl

/-- A space ends a number. -/
theorem space_ends (rest : List Char) : ∀ c ∈ (' ' :: rest).head?, c.isDigit = false := by
  intro c hc
  obtain rfl : ' ' = c := Option.some.inj hc
  rfl

/-- White space in front changes nothing. -/
theorem Spelled.blank_append {blanks : List Char} (hblanks : Blank blanks) (h : Spelled text l) :
    Spelled (blanks ++ text) l := by
  have happend : ∀ {blanks'}, Blank blanks' → Blank (blanks ++ blanks') := by
    intro blanks' hblanks' c hc
    rcases List.mem_append.mp hc with hc | hc
    · exact hblanks c hc
    · exact hblanks' c hc
  cases h with
  | nil blank => exact .nil (happend blank)
  | cons blank decimal fits ends others =>
    rw [← List.append_assoc]
    exact .cons (happend blank) decimal fits ends others

/-- **Written with a space after each, and read back.** -/
theorem spelled_insertEach (hl : ∀ x ∈ l, x < 2 ^ 32) : Spelled (insertEach l) l := by
  induction l with
  | nil => exact .nil blank_nil
  | cons x l ih =>
    have hrest := ih fun y hy => hl y (List.mem_cons_of_mem x hy)
    have hsplit : insertEach (x :: l) = [] ++ (insertUnsigned x ++ ([' '] ++ insertEach l)) := by
      rw [insertEach, List.flatMap_cons, List.append_assoc]
      rfl
    rw [hsplit]
    exact .cons blank_nil (decimal_toDigits x) (hl x List.mem_cons_self) (space_ends _)
      (hrest.blank_append blank_space)

/-! ## The characters that are written -/

/-- A number is written with digits only. -/
theorem isDigit_of_mem_insertUnsigned (h : c ∈ insertUnsigned n) : c.isDigit = true :=
  (decimal_toDigits n).isDigit c h

theorem mem_insertBetween (h : c ∈ insertBetween l) : c.isDigit = true ∨ c = ' ' := by
  cases l with
  | nil => exact absurd h List.not_mem_nil
  | cons x l =>
    rcases List.mem_append.mp h with h | h
    · exact Or.inl (isDigit_of_mem_insertUnsigned h)
    · obtain ⟨y, -, hy⟩ := List.mem_flatMap.mp h
      rcases List.mem_cons.mp hy with rfl | hy
      · exact Or.inr rfl
      · exact Or.inl (isDigit_of_mem_insertUnsigned hy)

theorem mem_insertEach (h : c ∈ insertEach l) : c.isDigit = true ∨ c = ' ' := by
  obtain ⟨x, -, hx⟩ := List.mem_flatMap.mp h
  rcases List.mem_append.mp hx with hx | hx
  · exact Or.inl (isDigit_of_mem_insertUnsigned hx)
  · exact Or.inr (List.mem_singleton.mp hx)

/-- Numbers with at most `k` digits make a text that is at most so long. -/
theorem length_insertBetween_le {k : ℕ} (hk : 0 < k) (hl : ∀ x ∈ l, x < 10 ^ k) :
    (insertBetween l).length ≤ (k + 1) * l.length := by
  have hnumber : ∀ x ∈ l, (insertUnsigned x).length ≤ k := fun x hx =>
    (Nat.length_toDigits_le_iff (by decide) hk).mpr (hl x hx)
  have hrest : ∀ l' : List ℕ, (∀ x ∈ l', x ∈ l) →
      (l'.flatMap fun y => ' ' :: insertUnsigned y).length ≤ (k + 1) * l'.length := by
    intro l' hsub
    induction l' with
    | nil => exact Nat.zero_le _
    | cons x l' ih =>
      have hx := hnumber x (hsub x List.mem_cons_self)
      have hle := ih fun y hy => hsub y (List.mem_cons_of_mem x hy)
      rw [List.flatMap_cons, List.length_append, List.length_cons, List.length_cons,
        Nat.mul_succ]
      omega
  cases l with
  | nil => exact Nat.zero_le _
  | cons x l =>
    have hx := hnumber x List.mem_cons_self
    have hle := hrest l fun y hy => List.mem_cons_of_mem x hy
    rw [insertBetween, List.length_append, List.length_cons, Nat.mul_succ]
    omega

end Ostream
