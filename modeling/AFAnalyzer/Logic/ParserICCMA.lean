import AFAnalyzer.Logic.AF
import AFAnalyzer.Stream.Extraction

/-!
# `ParserICCMA::parse_af`

The file is a list of characters; opening it is not modelled.  The locals `attacker` and
`victim` of the reading loop are declared without a value, so what they contain when an
iteration starts is a parameter of the run (`Garbage`), and an extraction that fails early
leaves it in them.

The loop tests `eof` before `getline`, so a final newline makes it read one more, empty
line.  `readAf_eq` puts this in closed form: the loop calls `add_attack` once for each line
of the text after the first that is neither empty nor a comment, and the fuel never runs
out.

`readAf` is `parse_af` up to the call of `finish_initilization`, which indexes by the ids of
the stored attacks; memory is not bounded.
-/

namespace AFAnalyzer.ParserICCMA

open Istream

/-- What `attacker` and `victim` contain at the start of each iteration of the loop. -/
abbrev Garbage := ℕ → UInt32 × UInt32

/-- The conversion of an `int32_t` to `uint32_t`. -/
def intToUnsigned (x : ℤ) : ℕ := (x % 2 ^ 32).toNat

/-- `iss >> p >> af >> n_args` on the first line. -/
def readHeader (line : List Char) : ℤ :=
  let (iss, _) := extractWord (ofText line) []
  let (iss, _) := extractWord iss []
  (extractInt iss 0).2

/-- `iss >> attacker >> victim` on a line. -/
def readAttack (line : List Char) (init : UInt32 × UInt32) : ℕ × ℕ :=
  let (iss, attacker) := extractUnsigned (ofText line) init.1.toNat
  let (_, victim) := extractUnsigned iss init.2.toNat
  (attacker, victim)

/-- The lines that the loop passes over. -/
def isSkipped (line : List Char) : Bool := line.length == 0 || line.head? == some '#'

/-- The reading loop, at iteration `i`. -/
def attackLoop (g : Garbage) : ℕ → ℕ → Stream → List Char → AF → Option AF
  | 0, _, _, _, _ => none
  | fuel + 1, i, input, line, framework =>
    if input.eofbit = true then some framework
    else
      let (input, line) := getline input line
      if isSkipped line = true then attackLoop g fuel (i + 1) input line framework
      else
        let (attacker, victim) := readAttack line (g i)
        attackLoop g fuel (i + 1) input line (framework.addAttack attacker victim).1

/-- `parse_af` on a fresh framework, up to `finish_initilization`; `none` is `exit(1)`. -/
def readAf (g : Garbage) (text : List Char) : Option AF :=
  let (input, line) := getline (ofText text) []
  if line.head? = some 'p' then
    attackLoop g (text.length + 1) 0 input line
      (AF.fresh.initializeArgs (intToUnsigned (readHeader line)))
  else none

/-- `parse_af` on a fresh framework, with the attacks visited in the given order. -/
def parseAf (g : Garbage) (order : List (ℕ × ℕ)) (text : List Char) : Option AF :=
  (readAf g text).map fun framework => framework.finishInitilization order

/-- A run of `parse_af` with result `F`: the order is one in which the stored set may be
iterated. -/
def Parses (g : Garbage) (text : List Char) (F : AF) : Prop :=
  ∃ F₀ order, readAf g text = some F₀ ∧ IterationOrder F₀.attacks order ∧
    parseAf g order text = some F

/-! ## The loop in closed form -/

/-- The first line. -/
def header (text : List Char) : List Char := text.takeWhile (· != '\n')

/-- The lines after the first. -/
def bodyLines (text : List Char) : List (List Char) := (text.splitOn '\n').tail

/-- The lines from which `add_attack` is called. -/
def attackLines (text : List Char) : List (List Char) :=
  (bodyLines text).filter fun line => !isSkipped line

/-- The number of arguments that the header declares. -/
def headerArgs (text : List Char) : ℕ := intToUnsigned (readHeader (header text))

/-- The arguments of the `add_attack` calls for some lines, from iteration `i` on. -/
def calls (g : Garbage) : ℕ → List (List Char) → List (ℕ × ℕ)
  | _, [] => []
  | i, line :: lines =>
    if isSkipped line = true then calls g (i + 1) lines
    else readAttack line (g i) :: calls g (i + 1) lines

variable {g : Garbage} {text line rest : List Char} {lines : List (List Char)} {F : AF} {i : ℕ}

/-- Each call reads one of the lines. -/
theorem exists_of_mem_calls {p : ℕ × ℕ} (hp : p ∈ calls g i lines) :
    ∃ line ∈ lines, isSkipped line = false ∧ ∃ init, p = readAttack line init := by
  induction lines generalizing i with
  | nil => exact absurd hp List.not_mem_nil
  | cons line lines ih =>
    unfold calls at hp
    by_cases hskip : isSkipped line = true
    · rw [if_pos hskip] at hp
      obtain ⟨other, hmem, hrest⟩ := ih hp
      exact ⟨other, List.mem_cons_of_mem _ hmem, hrest⟩
    · rw [if_neg hskip] at hp
      rcases List.mem_cons.mp hp with rfl | hp
      · exact ⟨line, List.mem_cons_self, Bool.eq_false_iff.mpr hskip, g i, rfl⟩
      · obtain ⟨other, hmem, hrest⟩ := ih hp
        exact ⟨other, List.mem_cons_of_mem _ hmem, hrest⟩

/-- Each line that is not passed over is read. -/
theorem exists_readAttack_mem_calls (hmem : line ∈ lines) (hskip : isSkipped line = false) :
    ∃ j, readAttack line (g j) ∈ calls g i lines := by
  induction lines generalizing i with
  | nil => exact absurd hmem List.not_mem_nil
  | cons first lines ih =>
    unfold calls
    rcases List.mem_cons.mp hmem with rfl | hmem
    · rw [if_neg (by rw [hskip]; exact Bool.false_ne_true)]
      exact ⟨i, List.mem_cons_self⟩
    · obtain ⟨j, hj⟩ := ih (i := i + 1) hmem
      refine ⟨j, ?_⟩
      split
      · exact hj
      · exact List.mem_cons_of_mem _ hj

theorem addAttacks_cons (F : AF) (p : ℕ × ℕ) (ps : List (ℕ × ℕ)) :
    F.addAttacks (p :: ps) = (F.addAttack p.1 p.2).1.addAttacks ps := rfl

/-- One iteration on a line: what the body does with it. -/
theorem attackLoop_line (fuel : ℕ) {input after : Stream} {old : List Char}
    (heof : input.eofbit = false) (hgetline : getline input old = (after, line)) :
    ∃ F', attackLoop g (fuel + 1) i input old F = attackLoop g fuel (i + 1) after line F' ∧
      ∀ lines, F.addAttacks (calls g i (line :: lines)) =
        F'.addAttacks (calls g (i + 1) lines) := by
  rw [attackLoop, if_neg (by rw [heof]; exact Bool.false_ne_true), hgetline]
  simp only [calls]
  by_cases hskip : isSkipped line = true
  · refine ⟨F, by rw [if_pos hskip], fun lines => by rw [if_pos hskip]⟩
  · refine ⟨(F.addAttack (readAttack line (g i)).1 (readAttack line (g i)).2).1,
      by rw [if_neg hskip], fun lines => ?_⟩
    rw [if_neg hskip, addAttacks_cons]

/-- **The loop reads every line of what is left once**, the last one with or without a newline
after it.  Each line but the last takes a newline with it, so the fuel lasts. -/
theorem attackLoop_eq {fuel : ℕ} {old : List Char} (hfuel : rest.length + 2 ≤ fuel) :
    attackLoop g fuel i (ofText rest) old F =
      some (F.addAttacks (calls g i (rest.splitOn '\n'))) := by
  induction fuel generalizing rest i old F with
  | zero => omega
  | succ fuel ih =>
    by_cases hmem : '\n' ∈ rest
    · obtain ⟨line, rest, rfl, hline⟩ := List.eq_append_cons_of_mem hmem
      obtain ⟨F', hloop, hcalls⟩ := attackLoop_line (g := g) (F := F) (i := i) fuel rfl
        (getline_line hline rest old)
      rw [hloop, List.splitOn_append_cons_self_of_not_mem hline, hcalls]
      refine ih ?_
      rw [List.length_append, List.length_cons] at hfuel
      omega
    · obtain ⟨fuel, rfl⟩ : ∃ n, fuel = n + 1 := ⟨fuel - 1, by omega⟩
      obtain ⟨F', hloop, hcalls⟩ := attackLoop_line (g := g) (F := F) (i := i) (fuel + 1) rfl
        (getline_last hmem old)
      rw [hloop, List.splitOn_eq_singleton hmem, hcalls]
      rfl

/-- The lines of a text. -/
theorem splitOn_newline (text : List Char) :
    text.splitOn '\n' = header text :: bodyLines text := by
  unfold header bodyLines
  by_cases hmem : '\n' ∈ text
  · obtain ⟨line, rest, rfl, hline⟩ := List.eq_append_cons_of_mem hmem
    rw [List.splitOn_append_cons_self_of_not_mem hline, takeWhile_line hline, List.tail_cons]
  · rw [List.splitOn_eq_singleton hmem, takeWhile_last hmem, List.tail_cons]

/-- **What `parse_af` has stored before `finish_initilization`.** -/
theorem readAf_eq (g : Garbage) (text : List Char) : readAf g text =
    if (header text).head? = some 'p' then
      some ((AF.fresh.initializeArgs (headerArgs text)).addAttacks (calls g 0 (bodyLines text)))
    else none := by
  by_cases hmem : '\n' ∈ text
  · obtain ⟨line, rest, rfl, hline⟩ := List.eq_append_cons_of_mem hmem
    have hheader : header (line ++ '\n' :: rest) = line := takeWhile_line hline rest
    have hbody : bodyLines (line ++ '\n' :: rest) = rest.splitOn '\n' := by
      rw [bodyLines, List.splitOn_append_cons_self_of_not_mem hline, List.tail_cons]
    unfold readAf headerArgs
    rw [getline_line hline, hheader, hbody]
    simp only
    split
    · exact attackLoop_eq (by rw [List.length_append, List.length_cons]; omega)
    · rfl
  · have hheader : header text = text := takeWhile_last hmem
    have hbody : bodyLines text = [] := by
      rw [bodyLines, List.splitOn_eq_singleton hmem, List.tail_cons]
    unfold readAf headerArgs
    rw [getline_last hmem, hheader, hbody]
    rfl

example : (readAf (fun _ => (0, 0)) "p af 3\n# c\n1 2\n\n2 3".toList).map AF.attacks =
    some {(1, 2), (2, 3)} := by decide

theorem readAf_eq_some {F : AF} : readAf g text = some F ↔ (header text).head? = some 'p' ∧
    F = (AF.fresh.initializeArgs (headerArgs text)).addAttacks (calls g 0 (bodyLines text)) := by
  rw [readAf_eq]
  split
  · next h => exact ⟨fun hF => ⟨h, (Option.some.inj hF).symm⟩, fun hF => congrArg some hF.2.symm⟩
  · next h => exact ⟨fun hF => absurd hF.symm (Option.some_ne_none F), fun hF => absurd hF.1 h⟩

/-- What is stored are the ids that the lines leave in the two variables. -/
theorem attacks_of_readAf {F : AF} (h : readAf g text = some F) :
    F.numArgs = headerArgs text ∧ F.attacks = (calls g 0 (bodyLines text)).toFinset := by
  obtain ⟨-, rfl⟩ := readAf_eq_some.mp h
  rw [AF.addAttacks_initializeArgs_fresh]
  exact ⟨rfl, rfl⟩

/-- **`parse_af` builds the framework of its `add_attack` calls.** -/
theorem parses_iff {F : AF} : Parses g text F ↔ (header text).head? = some 'p' ∧
    ∃ order, IterationOrder (calls g 0 (bodyLines text)).toFinset order ∧
      F = buildAF (headerArgs text) (calls g 0 (bodyLines text)) order := by
  constructor
  · rintro ⟨F₀, order, hread, horder, hparse⟩
    rw [(attacks_of_readAf hread).2] at horder
    obtain ⟨hp, rfl⟩ := readAf_eq_some.mp hread
    rw [parseAf, hread] at hparse
    exact ⟨hp, order, horder, (Option.some.inj hparse).symm⟩
  · rintro ⟨hp, order, horder, rfl⟩
    have hread := (readAf_eq_some (g := g)).mpr ⟨hp, rfl⟩
    refine ⟨_, order, hread, ?_, ?_⟩
    · rw [(attacks_of_readAf hread).2]
      exact horder
    · rw [parseAf, hread]
      rfl

/-! ## One line -/

/-- Two numbers that fit into 32 bits stand at the front of a line. -/
def ReadsPair (line : List Char) (attacker victim : ℕ) : Prop :=
  ∃ rest rest', Number line attacker rest ∧ Number rest victim rest'

/-- What a line may leave in the two variables.  Only in the last case has it set both to
numbers that it holds. -/
inductive Leaves (line : List Char) : ℕ → ℕ → Prop
  | blank (h : Blank line) (attacker victim : UInt32) :
      Leaves line attacker.toNat victim.toNat
  | noNumber (h : NoNumber line) (victim : UInt32) : Leaves line 0 victim.toNat
  | tooLarge (h : TooLarge line) (victim : UInt32) : Leaves line (2 ^ 32 - 1) victim.toNat
  | one {x rest} (h : Number line x rest) (h' : Blank rest) (victim : UInt32) :
      Leaves line x victim.toNat
  | secondNoNumber {x rest} (h : Number line x rest) (h' : NoNumber rest) : Leaves line x 0
  | secondTooLarge {x rest} (h : Number line x rest) (h' : TooLarge rest) :
      Leaves line x (2 ^ 32 - 1)
  | two {x y} (h : ReadsPair line x y) : Leaves line x y

/-- The second extraction is not made when the first fails. -/
theorem readAttack_of_failed {init : UInt32 × UInt32}
    (h : (extractUnsigned (ofText line) init.1.toNat).1.failbit = true) : readAttack line init =
      ((extractUnsigned (ofText line) init.1.toNat).2, init.2.toNat) := by
  show ((extractUnsigned (ofText line) init.1.toNat).2,
    (extractUnsigned (extractUnsigned (ofText line) init.1.toNat).1 init.2.toNat).2) = _
  rw [extractUnsigned_failed h]

/-- After a number the second extraction goes on behind it. -/
theorem readAttack_of_number {x : ℕ} (h : Number line x rest) (init : UInt32 × UInt32) :
    readAttack line init = (x, (extractUnsigned (ofText rest) init.2.toNat).2) := by
  unfold readAttack
  rw [extractUnsigned_number h]
  simp only
  rw [extractUnsigned_resume]

theorem readAttack_pair {x y : ℕ} (h : ReadsPair line x y) (init : UInt32 × UInt32) :
    readAttack line init = (x, y) := by
  obtain ⟨rest, rest', hx, hy⟩ := h
  rw [readAttack_of_number hx, extractUnsigned_number hy]

/-- Whatever the locals contain, the line leaves what `Leaves` says. -/
theorem leaves_readAttack (line : List Char) (init : UInt32 × UInt32) :
    Leaves line (readAttack line init).1 (readAttack line init).2 := by
  rcases field_cases line with h | h | h | ⟨x, rest, h⟩
  · obtain ⟨hfail, hval⟩ := extractUnsigned_blank h init.1.toNat
    rw [readAttack_of_failed hfail, hval]
    exact Leaves.blank h init.1 init.2
  · obtain ⟨hfail, hval⟩ := extractUnsigned_noNumber h init.1.toNat
    rw [readAttack_of_failed hfail, hval]
    exact Leaves.noNumber h init.2
  · obtain ⟨hfail, hval⟩ := extractUnsigned_tooLarge h init.1.toNat
    rw [readAttack_of_failed hfail, hval]
    exact Leaves.tooLarge h init.2
  · rw [readAttack_of_number h]
    rcases field_cases rest with h' | h' | h' | ⟨y, rest', h'⟩
    · rw [(extractUnsigned_blank h' init.2.toNat).2]
      exact Leaves.one h h' init.2
    · rw [(extractUnsigned_noNumber h' init.2.toNat).2]
      exact Leaves.secondNoNumber h h'
    · rw [(extractUnsigned_tooLarge h' init.2.toNat).2]
      exact Leaves.secondTooLarge h h'
    · rw [extractUnsigned_number h']
      exact Leaves.two ⟨rest, rest', h, h'⟩

/-- And each of these cases is possible. -/
theorem Leaves.exists_readAttack {x y : ℕ} (h : Leaves line x y) :
    ∃ init, readAttack line init = (x, y) := by
  cases h with
  | blank h attacker victim =>
    obtain ⟨hfail, hval⟩ := extractUnsigned_blank h attacker.toNat
    exact ⟨(attacker, victim), by rw [readAttack_of_failed hfail, hval]⟩
  | noNumber h victim =>
    obtain ⟨hfail, hval⟩ := extractUnsigned_noNumber h 0
    exact ⟨(0, victim), by rw [readAttack_of_failed hfail]; exact Prod.ext hval rfl⟩
  | tooLarge h victim =>
    obtain ⟨hfail, hval⟩ := extractUnsigned_tooLarge h 0
    exact ⟨(0, victim), by rw [readAttack_of_failed hfail]; exact Prod.ext hval rfl⟩
  | one h h' victim =>
    exact ⟨(0, victim), by rw [readAttack_of_number h, (extractUnsigned_blank h' _).2]⟩
  | secondNoNumber h h' =>
    exact ⟨(0, 0), by rw [readAttack_of_number h, (extractUnsigned_noNumber h' _).2]⟩
  | secondTooLarge h h' =>
    exact ⟨(0, 0), by rw [readAttack_of_number h, (extractUnsigned_tooLarge h' _).2]⟩
  | two h => exact ⟨(0, 0), readAttack_pair h _⟩

/-! ## What is stored -/

theorem mem_attackLines : line ∈ attackLines text ↔
    line ∈ bodyLines text ∧ isSkipped line = false := by
  rw [attackLines, List.mem_filter, Bool.not_eq_true', Bool.eq_false_iff]

/-- Every stored attack is left by some line. -/
theorem exists_leaves_of_mem_attacks {x y : ℕ} (h : readAf g text = some F)
    (hmem : (x, y) ∈ F.attacks) : ∃ line ∈ attackLines text, Leaves line x y := by
  rw [(attacks_of_readAf h).2, List.mem_toFinset] at hmem
  obtain ⟨line, hline, hskip, init, hinit⟩ := exists_of_mem_calls hmem
  obtain ⟨rfl, rfl⟩ := Prod.mk.inj hinit
  exact ⟨line, mem_attackLines.mpr ⟨hline, hskip⟩, leaves_readAttack line init⟩

/-- And everything that a line may leave is stored in some run. -/
theorem exists_readAf_of_leaves {x y : ℕ} (hp : (header text).head? = some 'p')
    (hline : line ∈ attackLines text) (hleaves : Leaves line x y) :
    ∃ g F, readAf g text = some F ∧ (x, y) ∈ F.attacks := by
  obtain ⟨init, hinit⟩ := hleaves.exists_readAttack
  obtain ⟨hmem, hskip⟩ := mem_attackLines.mp hline
  have hread := (readAf_eq_some (g := fun _ => init)).mpr ⟨hp, rfl⟩
  refine ⟨fun _ => init, _, hread, ?_⟩
  obtain ⟨j, hj⟩ := exists_readAttack_mem_calls (g := fun _ => init) (i := 0) hmem hskip
  rw [(attacks_of_readAf hread).2, List.mem_toFinset, ← hinit]
  exact hj

theorem calls_append (lines lines' : List (List Char)) :
    calls g i (lines ++ lines') = calls g i lines ++ calls g (i + lines.length) lines' := by
  induction lines generalizing i with
  | nil => rfl
  | cons line lines ih =>
    have hindex : i + (line :: lines).length = i + 1 + lines.length := by
      rw [List.length_cons]
      omega
    rw [List.cons_append, hindex, calls, calls]
    split
    · exact ih
    · rw [ih, List.cons_append]

/-! ## Runs on the same text -/

/-- In the run, `add_attack` adds an attack from `line`, which the loop reads after the lines
`before`: it is called for the line, and it returns true. -/
structure AddsFrom (g : Garbage) (text : List Char) (before : List (List Char))
    (line : List Char) : Prop where
  reads : ∃ after, bodyLines text = before ++ line :: after
  called : isSkipped line = false
  adds : (((AF.fresh.initializeArgs (headerArgs text)).addAttacks (calls g 0 before)).addAttack
    (readAttack line (g before.length)).1 (readAttack line (g before.length)).2).2 = true

/-- What is stored depends on the text alone: any two runs store the same framework, and an
attack is added only from a line on which two numbers are read. -/
structure Deterministic (text : List Char) : Prop where
  same : ∀ g g' F F', readAf g text = some F → readAf g' text = some F' → F = F'
  source : ∀ g F, readAf g text = some F → ∀ before line, AddsFrom g text before line →
    ∃ x y, ReadsPair line x y

/-- Two numbers are read on the line, or what it leaves has been written as two numbers on a line
before it: then `add_attack` finds the attack among the stored ones. -/
def Covered (before : List (List Char)) (line : List Char) : Prop :=
  (∃ x y, ReadsPair line x y) ∨ ∀ x y, Leaves line x y →
    ∃ earlier ∈ before, isSkipped earlier = false ∧ ReadsPair earlier x y

/-- An attack is added exactly when no line before has left it. -/
theorem addsFrom_iff {before : List (List Char)} : AddsFrom g text before line ↔
    (∃ after, bodyLines text = before ++ line :: after) ∧ isSkipped line = false ∧
      readAttack line (g before.length) ∉ calls g 0 before := by
  have hadds : (((AF.fresh.initializeArgs (headerArgs text)).addAttacks
      (calls g 0 before)).addAttack (readAttack line (g before.length)).1
        (readAttack line (g before.length)).2).2 = true ↔
      readAttack line (g before.length) ∉ calls g 0 before := by
    rw [AF.addAttack_snd, AF.addAttacks_initializeArgs_fresh]
    exact List.mem_toFinset.not
  exact ⟨fun h => ⟨h.reads, h.called, hadds.mp h.adds⟩, fun ⟨h, h', h''⟩ => ⟨h, h', hadds.mpr h''⟩⟩

theorem mem_calls_of_readsPair {x y : ℕ} (hmem : line ∈ lines) (hskip : isSkipped line = false)
    (hpair : ReadsPair line x y) : (x, y) ∈ calls g i lines := by
  obtain ⟨j, hj⟩ := exists_readAttack_mem_calls (g := g) (i := i) hmem hskip
  rwa [readAttack_pair hpair (g j)] at hj

/-- If attacks are added only from lines with two numbers, everything that is stored is written
as two numbers on one of the lines read so far. -/
theorem exists_readsPair_of_mem_calls {before after : List (List Char)} {p : ℕ × ℕ}
    (hsource : ∀ before line, AddsFrom g text before line → ∃ x y, ReadsPair line x y)
    (hlines : bodyLines text = before ++ after) (hp : p ∈ calls g 0 before) :
    ∃ earlier ∈ before, isSkipped earlier = false ∧ ReadsPair earlier p.1 p.2 := by
  induction before using List.reverseRecOn generalizing after with
  | nil => exact absurd hp List.not_mem_nil
  | append_singleton before line ih =>
    rw [List.append_assoc] at hlines
    have hearlier : p ∈ calls g 0 before → ∃ earlier ∈ before ++ [line],
        isSkipped earlier = false ∧ ReadsPair earlier p.1 p.2 := by
      intro hp
      obtain ⟨earlier, hmem, hearlier⟩ := ih hlines hp
      exact ⟨earlier, List.mem_append_left _ hmem, hearlier⟩
    by_cases hold : p ∈ calls g 0 before
    · exact hearlier hold
    · -- the last line has left it, and adds it
      rw [calls_append, List.mem_append] at hp
      have hlast := hp.resolve_left hold
      rw [Nat.zero_add] at hlast
      unfold calls at hlast
      by_cases hskip : isSkipped line = true
      · rw [if_pos hskip] at hlast
        exact absurd hlast List.not_mem_nil
      · rw [if_neg hskip] at hlast
        obtain rfl := List.mem_singleton.mp hlast
        have hcalls : isSkipped line = false := Bool.eq_false_iff.mpr hskip
        obtain ⟨x, y, hpair⟩ :=
          hsource before line (addsFrom_iff.mpr ⟨⟨after, hlines⟩, hcalls, hold⟩)
        refine ⟨line, List.mem_append_right _ List.mem_cons_self, hcalls, ?_⟩
        rwa [readAttack_pair hpair]

/-- **When the contents of the uninitialised locals do not matter.**  Every line of an accepted
text that is neither empty nor a comment must begin with two numbers, or whatever it may leave in
the locals must be written as two numbers on such a line before it. -/
theorem deterministic_iff (text : List Char) : Deterministic text ↔
    ((header text).head? = some 'p' → ∀ before line after,
      bodyLines text = before ++ line :: after → isSkipped line = false →
        Covered before line) := by
  constructor
  · intro hdet hp before line after hlines hskip
    refine or_iff_not_imp_left.mpr fun hnone x y hleaves => ?_
    obtain ⟨init, hinit⟩ := hleaves.exists_readAttack
    have hsource := hdet.source (fun _ => init) _ (readAf_eq_some.mpr ⟨hp, rfl⟩)
    -- the line adds nothing in a run in which it leaves these two ids
    have hmem : (x, y) ∈ calls (fun _ => init) 0 before := by
      by_contra hnew
      rw [← hinit] at hnew
      exact hnone (hsource before line (addsFrom_iff.mpr ⟨⟨after, hlines⟩, hskip, hnew⟩))
    exact exists_readsPair_of_mem_calls hsource hlines hmem
  · intro hcovered
    have hsource : ∀ g F, readAf g text = some F → ∀ before line, AddsFrom g text before line →
        ∃ x y, ReadsPair line x y := by
      intro g F hread before line hadds
      obtain ⟨⟨after, hlines⟩, hskip, hnew⟩ := addsFrom_iff.mp hadds
      refine (hcovered (readAf_eq_some.mp hread).1 before line after hlines hskip).resolve_right
        fun hcover => hnew ?_
      obtain ⟨earlier, hmem, hskip', hpair⟩ :=
        hcover _ _ (leaves_readAttack line (g before.length))
      exact mem_calls_of_readsPair hmem hskip' hpair
    have hcalls : ∀ g F, readAf g text = some F → ∀ p, p ∈ calls g 0 (bodyLines text) ↔
        ∃ line ∈ bodyLines text, isSkipped line = false ∧ ReadsPair line p.1 p.2 := by
      intro g F hread p
      refine ⟨exists_readsPair_of_mem_calls (hsource g F hread) (List.append_nil _).symm, ?_⟩
      rintro ⟨line, hmem, hskip, hpair⟩
      exact mem_calls_of_readsPair hmem hskip hpair
    refine ⟨fun g g' F F' hread hread' => ?_, hsource⟩
    have hset : (calls g 0 (bodyLines text)).toFinset =
        (calls g' 0 (bodyLines text)).toFinset := by
      ext p
      rw [List.mem_toFinset, List.mem_toFinset, hcalls g F hread, hcalls g' F' hread']
    obtain ⟨-, rfl⟩ := readAf_eq_some.mp hread
    obtain ⟨-, rfl⟩ := readAf_eq_some.mp hread'
    rw [AF.addAttacks_initializeArgs_fresh, AF.addAttacks_initializeArgs_fresh, hset]

/-- A blank line of a file with CRLF line ends holds a carriage return, so it is not passed
over, and both locals are stored as they are. -/
theorem not_deterministic_crlf : ¬ Deterministic "p af 1\r\n1 1\r\n\r\n".toList := by
  intro hdet
  have hsame := hdet.same (fun _ => (0, 0)) (fun _ => (1, 1)) _ _ rfl rfl
  exact absurd hsame (by decide)

end AFAnalyzer.ParserICCMA
