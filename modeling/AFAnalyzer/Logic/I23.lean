import AFAnalyzer.Logic.AttackViews
import AFAnalyzer.Logic.ParserICCMA

/-!
# The i23 format, and what `parse_af` makes of it

A file is a header `p af n` and lines that are empty, comments or attacks.  The lines may
stand in any order and repeat, an attack line may have white space before, between and after
its two ids, ids may have leading zeros, and the last line may or may not end in a newline
(`I23`).  Reading such a text gives a framework over `1..n` with the attacks that its lines
name, whatever the run finds in the uninitialised locals and in whatever order it visits the
stored set (`parseAf_i23`).
-/

namespace AFAnalyzer

open Istream ParserICCMA

/-- White space within a line. -/
def IsBlank (blanks : List Char) : Prop := ∀ c ∈ blanks, isSpace c = true ∧ c ≠ '\n'

/-- A line with two ids in `1..n`. -/
structure AttackLine (n : ℕ) where
  lead : List Char
  attackerDigits : List Char
  attacker : ℕ
  separator : List Char
  victimDigits : List Char
  victim : ℕ
  trail : List Char
  lead_blank : IsBlank lead
  separator_blank : IsBlank separator
  trail_blank : IsBlank trail
  separator_ne_nil : separator ≠ []
  decimal_attacker : Decimal attackerDigits attacker
  decimal_victim : Decimal victimDigits victim
  attacker_mem : 1 ≤ attacker ∧ attacker ≤ n
  victim_mem : 1 ≤ victim ∧ victim ≤ n

/-- The characters of an attack line. -/
def AttackLine.text {n : ℕ} (a : AttackLine n) : List Char :=
  a.lead ++ (a.attackerDigits ++ (a.separator ++ (a.victimDigits ++ a.trail)))

/-- A line after the header. -/
inductive BodyLine (n : ℕ)
  | empty
  | comment (text : List Char) (h : '\n' ∉ text)
  | attack (a : AttackLine n)

namespace BodyLine

/-- The characters of a line. -/
def text {n : ℕ} : BodyLine n → List Char
  | empty => []
  | comment text _ => '#' :: text
  | attack a => a.text

/-- The attack that a line names. -/
def pair? {n : ℕ} : BodyLine n → Option (ℕ × ℕ)
  | empty => none
  | comment _ _ => none
  | attack a => some (a.attacker, a.victim)

end BodyLine

/-- A file in the i23 format. -/
structure I23 where
  n : ℕ
  digits : List Char
  lines : List (BodyLine n)
  newline : Bool
  bound : n < 2 ^ 31 - 1
  decimal : Decimal digits n

namespace I23

/-- `p af n`. -/
def headerText (file : I23) : List Char := 'p' :: ' ' :: 'a' :: 'f' :: ' ' :: file.digits

/-- The characters of a file. -/
def text (file : I23) : List Char :=
  List.intercalate ['\n'] (file.headerText :: file.lines.map BodyLine.text) ++
    if file.newline = true then ['\n'] else []

/-- The attacks that the lines name, in their order. -/
def pairs (file : I23) : List (ℕ × ℕ) := file.lines.filterMap BodyLine.pair?

/-- Some line of the file reads `x y`. -/
def Reads (file : I23) (x y : ℕ) : Prop :=
  ∃ a : AttackLine file.n, BodyLine.attack a ∈ file.lines ∧ a.attacker = x ∧ a.victim = y

end I23

variable {n : ℕ} {g : Garbage} {i : ℕ}

/-! ## Lines -/

theorem isBlank_nil : IsBlank [] := fun _ hc => absurd hc List.not_mem_nil

theorem isBlank_space : IsBlank [' '] := by
  intro c hc
  obtain rfl := List.mem_singleton.mp hc
  exact ⟨rfl, by decide⟩

theorem isDigit_eq_false_of_isSpace {c : Char} (h : isSpace c = true) : c.isDigit = false := by
  rw [← Bool.not_eq_true]
  intro hdigit
  rw [isSpace_of_isDigit hdigit] at h
  exact Bool.false_ne_true h

theorem newline_not_mem_blank {blanks : List Char} (h : IsBlank blanks) : '\n' ∉ blanks :=
  fun hmem => (h _ hmem).2 rfl

theorem newline_not_mem_decimal {digits : List Char} {value : ℕ} (h : Decimal digits value) :
    '\n' ∉ digits := fun hmem => absurd (h.isDigit _ hmem) (by decide)

namespace AttackLine

variable (a : AttackLine n)

theorem newline_not_mem : '\n' ∉ a.text := by
  unfold text
  simp only [List.mem_append, not_or]
  exact ⟨newline_not_mem_blank a.lead_blank, newline_not_mem_decimal a.decimal_attacker,
    newline_not_mem_blank a.separator_blank, newline_not_mem_decimal a.decimal_victim,
    newline_not_mem_blank a.trail_blank⟩

/-- An attack line starts with white space or a digit. -/
theorem isSkipped_text : isSkipped a.text = false := by
  obtain ⟨c, digits, hdigits⟩ := List.exists_cons_of_ne_nil a.decimal_attacker.ne_nil
  have hc : c.isDigit = true := a.decimal_attacker.isDigit c (hdigits ▸ List.mem_cons_self)
  obtain ⟨d, rest, htext, hd⟩ : ∃ d rest, a.text = d :: rest ∧ d ≠ '#' := by
    unfold text
    cases hlead : a.lead with
    | nil => exact ⟨c, _, by rw [hdigits]; rfl, fun h => absurd hc (h ▸ by decide)⟩
    | cons d lead =>
      have hspace := (a.lead_blank d (hlead ▸ List.mem_cons_self)).1
      exact ⟨d, _, rfl, fun h => absurd hspace (h ▸ by decide)⟩
  rw [htext]
  simp [isSkipped, hd]

/-- **The two extractions read the two ids.** -/
theorem readAttack_text (hn : n < 2 ^ 31 - 1) (init : UInt32 × UInt32) :
    readAttack a.text init = (a.attacker, a.victim) := by
  have hattacker : a.attacker < 2 ^ 32 := by have := a.attacker_mem.2; omega
  have hvictim : a.victim < 2 ^ 32 := by have := a.victim_mem.2; omega
  have hseparator : ∀ c ∈ a.separator, c.isDigit = false := fun c hc =>
    isDigit_eq_false_of_isSpace (a.separator_blank c hc).1
  refine readAttack_pair ⟨a.separator ++ (a.victimDigits ++ a.trail), a.trail, ?_, ?_⟩ init
  · exact a.decimal_attacker.number hattacker (fun c hc => (a.lead_blank c hc).1)
      (forall_mem_head_append a.separator_ne_nil hseparator)
  · refine a.decimal_victim.number hvictim (fun c hc => (a.separator_blank c hc).1) fun c hc => ?_
    exact isDigit_eq_false_of_isSpace (a.trail_blank c (List.mem_of_mem_head? hc)).1

end AttackLine

theorem BodyLine.newline_not_mem (line : BodyLine n) : '\n' ∉ line.text := by
  cases line with
  | empty => exact List.not_mem_nil
  | comment text h =>
    rintro (_ | ⟨_, hmem⟩)
    exact h hmem
  | attack a => exact a.newline_not_mem

/-- The loop makes one call for each attack line, with the two ids. -/
theorem calls_text (hn : n < 2 ^ 31 - 1) (lines : List (BodyLine n)) (tail : List (List Char)) :
    ∃ j, calls g i (lines.map BodyLine.text ++ tail) =
      lines.filterMap BodyLine.pair? ++ calls g j tail := by
  induction lines generalizing i with
  | nil => exact ⟨i, rfl⟩
  | cons line lines ih =>
    obtain ⟨j, hj⟩ := ih (i := i + 1)
    refine ⟨j, ?_⟩
    rw [List.map_cons, List.cons_append, calls, hj]
    cases line with
    | empty => rfl
    | comment text h => rfl
    | attack a =>
      have hskip : ¬ isSkipped (BodyLine.attack a).text = true := by
        rw [BodyLine.text, a.isSkipped_text]
        exact Bool.false_ne_true
      rw [if_neg hskip]
      show readAttack a.text (g i) :: _ = (a.attacker, a.victim) :: _
      rw [a.readAttack_text hn]
      rfl

/-! ## Files -/

namespace I23

variable (file : I23)

theorem newline_not_mem_headerText : '\n' ∉ file.headerText := by
  have hdigits := newline_not_mem_decimal file.decimal
  unfold headerText
  simp [hdigits]

/-- The lines of the text: those of the file, and an empty one when it ends in a newline. -/
theorem splitOn_text : file.text.splitOn '\n' =
    file.headerText :: (file.lines.map BodyLine.text ++
      if file.newline = true then [[]] else []) := by
  have hlines : ∀ line ∈ file.headerText :: file.lines.map BodyLine.text, '\n' ∉ line := by
    intro line hline
    rcases List.mem_cons.mp hline with rfl | hline
    · exact file.newline_not_mem_headerText
    · obtain ⟨b, -, rfl⟩ := List.mem_map.mp hline
      exact b.newline_not_mem
  unfold text
  by_cases hnew : file.newline = true
  · rw [if_pos hnew, if_pos hnew, List.splitOn_append_cons_self,
      List.splitOn_intercalate _ hlines (List.cons_ne_nil _ _), List.splitOn_nil, List.cons_append]
  · rw [if_neg hnew, if_neg hnew, List.append_nil, List.append_nil,
      List.splitOn_intercalate _ hlines (List.cons_ne_nil _ _)]

theorem header_text : header file.text = file.headerText :=
  (List.cons.inj ((splitOn_newline file.text).symm.trans file.splitOn_text)).1

theorem bodyLines_text : bodyLines file.text =
    file.lines.map BodyLine.text ++ if file.newline = true then [[]] else [] :=
  (List.cons.inj ((splitOn_newline file.text).symm.trans file.splitOn_text)).2

/-- The header declares `n` arguments. -/
theorem headerArgs_text : headerArgs file.text = file.n := by
  have hbound := file.bound
  have hblank : Blank [' '] := fun c hc => (isBlank_space c hc).1
  have hp : extractWord (ofText file.headerText) [] =
      (ofText (' ' :: 'a' :: 'f' :: ' ' :: file.digits), ['p']) :=
    extractWord_word [] ['p'] (fun _ hc => absurd hc List.not_mem_nil) (List.cons_ne_nil _ _)
      (List.forall_mem_singleton.mpr rfl) rfl []
  have haf : extractWord (ofText (' ' :: 'a' :: 'f' :: ' ' :: file.digits)) [] =
      (ofText (' ' :: file.digits), ['a', 'f']) :=
    extractWord_word [' '] ['a', 'f'] hblank (List.cons_ne_nil _ _)
      (List.forall_mem_cons.mpr ⟨rfl, List.forall_mem_singleton.mpr rfl⟩) rfl []
  have hn : extractInt (ofText (' ' :: file.digits)) 0 = (⟨[], true, false⟩, (file.n : ℤ)) := by
    have hread : extractInt (ofText ([' '] ++ (file.digits ++ []))) 0 =
        (⟨[], true, false⟩, (file.n : ℤ)) :=
      extractInt_decimal file.decimal (by omega) hblank
        (fun c hc => absurd hc (Option.not_mem_none c))
    rw [List.append_nil] at hread
    exact hread
  have hheader : readHeader file.headerText = (file.n : ℤ) := by
    unfold readHeader
    simp only [hp, haf, hn]
  unfold headerArgs intToUnsigned
  rw [file.header_text, hheader]
  omega

/-- A final newline adds an empty line, which the loop passes over. -/
theorem calls_bodyLines (g : Garbage) : calls g 0 (bodyLines file.text) = file.pairs := by
  obtain ⟨j, hj⟩ := calls_text (g := g) (i := 0) file.bound file.lines
    (if file.newline = true then [[]] else [])
  have htail : calls g j (if file.newline = true then [[]] else []) = [] := by
    split <;> rfl
  rw [file.bodyLines_text, hj, htail, List.append_nil]
  rfl

theorem mem_pairs {x y : ℕ} : (x, y) ∈ file.pairs ↔ file.Reads x y := by
  unfold pairs Reads
  rw [List.mem_filterMap]
  constructor
  · rintro ⟨line, hmem, hpair⟩
    cases line with
    | empty => exact absurd hpair.symm (Option.some_ne_none _)
    | comment text h => exact absurd hpair.symm (Option.some_ne_none _)
    | attack a =>
      obtain ⟨hx, hy⟩ := Prod.mk.inj (Option.some.inj hpair)
      exact ⟨a, hmem, hx, hy⟩
  · rintro ⟨a, hmem, rfl, rfl⟩
    exact ⟨BodyLine.attack a, hmem, rfl⟩

theorem pairs_inRange : ∀ p ∈ file.pairs, p.1 ≤ file.n ∧ p.2 ≤ file.n := by
  rintro ⟨x, y⟩ hp
  obtain ⟨a, -, rfl, rfl⟩ := file.mem_pairs.mp hp
  exact ⟨a.attacker_mem.2, a.victim_mem.2⟩

/-- Reading a file builds a framework from any calls that list the attacks of its lines. -/
theorem parses_iff_buildAF (g : Garbage) {calls : List (ℕ × ℕ)}
    (hcalls : ∀ x y, (x, y) ∈ calls ↔ file.Reads x y) {F : AF} : Parses g file.text F ↔
    ∃ order, IterationOrder calls.toFinset order ∧ F = buildAF file.n calls order := by
  have hset : file.pairs.toFinset = calls.toFinset := by
    ext ⟨x, y⟩
    rw [List.mem_toFinset, List.mem_toFinset, file.mem_pairs, hcalls]
  have hbuild : ∀ order, buildAF file.n file.pairs order = buildAF file.n calls order := by
    intro order
    rw [buildAF, buildAF, AF.addAttacks_initializeArgs_fresh, AF.addAttacks_initializeArgs_fresh,
      hset]
  rw [parses_iff, file.calls_bodyLines, file.headerArgs_text, file.header_text, hset]
  simp only [hbuild]
  exact and_iff_right rfl

end I23

/-! ## Writing -/

/-- The line `x y`. -/
def AttackLine.ofIds {x y : ℕ} (hx : 1 ≤ x ∧ x ≤ n) (hy : 1 ≤ y ∧ y ≤ n) : AttackLine n where
  lead := []
  attackerDigits := Nat.toDigits 10 x
  attacker := x
  separator := [' ']
  victimDigits := Nat.toDigits 10 y
  victim := y
  trail := []
  lead_blank := isBlank_nil
  separator_blank := isBlank_space
  trail_blank := isBlank_nil
  separator_ne_nil := List.cons_ne_nil _ _
  decimal_attacker := decimal_toDigits x
  decimal_victim := decimal_toDigits y
  attacker_mem := hx
  victim_mem := hy

/-- Every framework over `1..n` can be written. -/
theorem I23.exists_pairs_eq (hn : n < 2 ^ 31 - 1) (newline : Bool) (calls : List (ℕ × ℕ))
    (hcalls : ∀ p ∈ calls, (1 ≤ p.1 ∧ p.1 ≤ n) ∧ 1 ≤ p.2 ∧ p.2 ≤ n) :
    ∃ file : I23, file.n = n ∧ file.newline = newline ∧ file.pairs = calls := by
  suffices h : ∃ lines : List (BodyLine n), lines.filterMap BodyLine.pair? = calls by
    obtain ⟨lines, hlines⟩ := h
    exact ⟨⟨n, Nat.toDigits 10 n, lines, newline, hn, decimal_toDigits n⟩, rfl, rfl, hlines⟩
  induction calls with
  | nil => exact ⟨[], rfl⟩
  | cons p calls ih =>
    obtain ⟨lines, hlines⟩ := ih fun q hq => hcalls q (List.mem_cons_of_mem _ hq)
    obtain ⟨hx, hy⟩ := hcalls p List.mem_cons_self
    refine ⟨BodyLine.attack (AttackLine.ofIds hx hy) :: lines, ?_⟩
    rw [List.filterMap_cons_some (by rfl), hlines]
    rfl

/-- **What `parse_af` makes of an i23 file.**  It does not reject it; the framework has `n`
arguments, its attacks are those that the lines read, and all its views say so.  And where the
lines list the attacks of a framework over `1..n`, in any order, the results are the ones
that building this framework from its own calls can give. -/
theorem parseAf_i23 (file : I23) (g : Garbage) :
    (∃ F, Parses g file.text F) ∧
      (∀ F, Parses g file.text F → F.numArgs = file.n ∧
        (∀ x y, F.att x y ↔ file.Reads x y) ∧ ViewsAgree file.n file.pairs F) ∧
      ∀ calls : List (ℕ × ℕ), (∀ x y, (x, y) ∈ calls ↔ file.Reads x y) → ∀ F,
        Parses g file.text F ↔
          ∃ order, IterationOrder calls.toFinset order ∧ F = buildAF file.n calls order := by
  have hparses : ∀ F, Parses g file.text F ↔
      ∃ order, IterationOrder file.pairs.toFinset order ∧ F = buildAF file.n file.pairs order :=
    fun F => file.parses_iff_buildAF g fun x y => file.mem_pairs
  refine ⟨?_, ?_, fun calls hcalls F => file.parses_iff_buildAF g hcalls⟩
  · exact ⟨_, (hparses _).mpr ⟨_, iterationOrder_dedup _, rfl⟩⟩
  · intro F hF
    obtain ⟨order, horder, rfl⟩ := (hparses F).mp hF
    refine ⟨buildAF_numArgs, fun x y => ?_, viewsAgree_buildAF file.pairs_inRange horder⟩
    rw [AF.att, buildAF_attacks, List.mem_toFinset, file.mem_pairs]

end AFAnalyzer
