import AFAnalyzer.Solver.Printing

/-!
# The report, and how it is read back

When `solve` has returned, `execute` writes `YES`, or `NO` with a witness: a line `w ` and,
if the list is not empty, a line with its ids.  All of it goes to the stream on which the
tasks have printed their lines (`Printing`).

`readReport` is the reader on the other side: it takes the first line that is an answer.
`readReport_append` is the round trip: whatever lines the tasks have printed, and however
their characters have interleaved, the reader gets the answer and the list.
-/

namespace AFAnalyzer

/-- The answer `YES`. -/
def yesLine : List Char := "YES".toList

/-- The answer `NO`. -/
def noLine : List Char := "NO".toList

/-- The line in front of a witness, which has a space at its end. -/
def witnessLine : List Char := "w ".toList

/-- What `execute` writes after `solve` has returned. -/
def report (skeptAccepted : Bool) (proofExtension : List ℕ) : List Char :=
  (if skeptAccepted = true then yesLine else noLine) ++ '\n' ::
    if skeptAccepted = true then []
    else witnessLine ++ '\n' ::
      if proofExtension.isEmpty = true then []
      else Ostream.insertEach proofExtension ++ ['\n']

/-- The line is no answer. -/
def isDebugLine (line : List Char) : Bool := line != yesLine && line != noLine

/-- The answer and the witness in what the program has written. -/
def readReport (cout : List Char) : Option (Bool × List ℕ) :=
  match (cout.splitOn '\n').dropWhile isDebugLine with
  | [] => none
  | answer :: lines =>
    if answer = yesLine then some (true, [])
    else
      match lines with
      | witness :: list :: _ =>
        if witness = witnessLine then some (false, Ostream.readNumbers list) else none
      | _ => none

variable {cout line : List Char} {skeptAccepted : Bool} {proof : List ℕ}

/-- The characters of a line are characters of the text. -/
theorem mem_of_mem_splitOn {text : List Char} {c : Char} (hline : line ∈ text.splitOn '\n')
    (hc : c ∈ line) : c ∈ text := by
  have hjoin : ∀ lines : List (List Char), line ∈ lines → c ∈ List.intercalate ['\n'] lines := by
    intro lines hmem
    induction lines with
    | nil => exact absurd hmem List.not_mem_nil
    | cons first lines ih =>
      by_cases hlast : lines = []
      · subst hlast
        rw [List.intercalate_singleton, ← List.mem_singleton.mp hmem]
        exact hc
      · rw [List.intercalate_cons_of_ne_nil hlast]
        rcases List.mem_cons.mp hmem with rfl | hmem
        · exact List.mem_append_left _ (List.mem_append_left _ hc)
        · exact List.mem_append_right _ (ih hmem)
  have hmem := hjoin _ hline
  rwa [List.intercalate_splitOn] at hmem

/-- The tasks write neither of the two answers. -/
theorem isDebugLine_of_printed (h : ∀ c ∈ line, PrintedChar c) : isDebugLine line = true := by
  have hY : ¬ PrintedChar 'Y' := by
    unfold PrintedChar
    decide
  have hN : ¬ PrintedChar 'N' := by
    unfold PrintedChar
    decide
  rw [isDebugLine, Bool.and_eq_true, bne_iff_ne, bne_iff_ne]
  constructor
  · rintro rfl
    exact hY (h 'Y' List.mem_cons_self)
  · rintro rfl
    exact hN (h 'N' List.mem_cons_self)

/-- The lines of a text that goes on after the end of a line. -/
theorem splitOn_append_of_endsLine (hends : EndsLine cout) (rest : List Char) :
    ∃ lines, (cout ++ rest).splitOn '\n' = lines ++ rest.splitOn '\n' ∧
      ∀ line ∈ lines, line ∈ cout.splitOn '\n' := by
  rcases List.eq_nil_or_concat cout with rfl | ⟨body, c, rfl⟩
  · exact ⟨[], rfl, fun line hline => absurd hline List.not_mem_nil⟩
  · rw [List.concat_eq_append] at hends ⊢
    obtain rfl := hends c (by rw [List.getLast?_concat]; rfl)
    refine ⟨body.splitOn '\n', ?_, fun line hline => ?_⟩
    · rw [List.append_assoc, List.singleton_append, List.splitOn_append_cons_self]
    · rw [List.splitOn_append_cons_self]
      exact List.mem_append_left _ hline

/-- The lines of a report. -/
theorem splitOn_report (skeptAccepted : Bool) (proof : List ℕ) :
    ∃ rest, (report skeptAccepted proof).splitOn '\n' =
      if skeptAccepted = true then yesLine :: rest
      else noLine :: witnessLine :: Ostream.insertEach proof :: rest := by
  have hyes : '\n' ∉ yesLine := by decide
  have hno : '\n' ∉ noLine := by decide
  have hwitness : '\n' ∉ witnessLine := by decide
  cases skeptAccepted with
  | true =>
    refine ⟨[[]], ?_⟩
    show (yesLine ++ '\n' :: []).splitOn '\n' = [yesLine, []]
    rw [List.splitOn_append_cons_self_of_not_mem hyes]
    rfl
  | false =>
    cases proof with
    | nil =>
      refine ⟨[], ?_⟩
      show (noLine ++ '\n' :: (witnessLine ++ '\n' :: [])).splitOn '\n' =
        [noLine, witnessLine, []]
      rw [List.splitOn_append_cons_self_of_not_mem hno,
        List.splitOn_append_cons_self_of_not_mem hwitness]
      rfl
    | cons x l =>
      have hlist : '\n' ∉ Ostream.insertEach (x :: l) := by
        intro hmem
        rcases Ostream.mem_insertEach hmem with h | h
        · exact absurd h (by decide)
        · exact absurd h (by decide)
      refine ⟨[[]], ?_⟩
      show (noLine ++ '\n' :: (witnessLine ++ '\n' ::
        (Ostream.insertEach (x :: l) ++ '\n' :: []))).splitOn '\n' =
        [noLine, witnessLine, Ostream.insertEach (x :: l), []]
      rw [List.splitOn_append_cons_self_of_not_mem hno,
        List.splitOn_append_cons_self_of_not_mem hwitness,
        List.splitOn_append_cons_self_of_not_mem hlist]
      rfl

/-- **The round trip.**  The reader gets the answer and the list, whatever the tasks have
printed before. -/
theorem readReport_append (hends : EndsLine cout) (hchars : ∀ c ∈ cout, PrintedChar c)
    (hproof : ∀ x ∈ proof, x < 2 ^ 32) : readReport (cout ++ report skeptAccepted proof) =
      some (skeptAccepted, if skeptAccepted = true then [] else proof) := by
  obtain ⟨lines, hsplit, hlines⟩ :=
    splitOn_append_of_endsLine hends (report skeptAccepted proof)
  have hdebug : ∀ line ∈ lines, isDebugLine line = true := fun line hline =>
    isDebugLine_of_printed fun c hc => hchars c (mem_of_mem_splitOn (hlines line hline) hc)
  obtain ⟨rest, hreport⟩ := splitOn_report skeptAccepted proof
  unfold readReport
  rw [hsplit, hreport, List.dropWhile_append_of_pos hdebug]
  cases skeptAccepted with
  | true =>
    have hyes : isDebugLine yesLine = false := by decide
    rw [if_pos rfl, List.dropWhile_cons_of_neg (by rw [hyes]; exact Bool.false_ne_true)]
    rfl
  | false =>
    have hno : isDebugLine noLine = false := by decide
    have hne : ¬ noLine = yesLine := by decide
    rw [if_neg Bool.false_ne_true,
      List.dropWhile_cons_of_neg (by rw [hno]; exact Bool.false_ne_true)]
    simp only [if_neg hne,
      Ostream.readNumbers_spelled (Ostream.spelled_insertEach hproof)]
    rfl

end AFAnalyzer
