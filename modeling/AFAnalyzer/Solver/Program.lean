import AFAnalyzer.Logic.I23
import AFAnalyzer.Solver.Certificate
import AFAnalyzer.Solver.CommandLine
import AFAnalyzer.Solver.Report

/-!
# The program as a whole

`Execute` is `execute` with the call of `solve` and the report after it.  On a file in the i23
format the parts fit together: the text is read as the framework of its lines (`I23`), the
solver decides the query under every schedule (`Certificate`), the tasks print next to it
(`Printing`), and the answer can be read off what has been written (`Report`).  The result is
`execute_i23`, which speaks of the file and of the output only.
-/

namespace AFAnalyzer

open Istream ParserICCMA

/-- `execute`: it ends under every choice of models and every schedule in which each task sees the
argument and the flag of its creator, and the outcome always satisfies `post`, with whatever list of
numbers a torn `proof_extension` is read as. -/
def Execute (texts : Texts) (start : Start) (g : Garbage) (order : List (ℕ × ℕ))
    (post : Outcome → Prop) : Prop :=
  match execute texts start g order with
  | .solves framework argument =>
    SolvePrinting framework argument [] fun _ skeptAccepted proofExtension cout =>
      post (.returns 0 (cout ++ report skeptAccepted proofExtension) [])
  | outcome => post outcome

/-- If the search is reached, no two answers to the question that the lines of the file leave to it
may be found at the same time. -/
def I23.Uncontended (file : I23) (q : ℕ) : Prop :=
  let cone := {a | Relation.ReflTransGen file.Reads a q}
  let left := Dung.reduct file.Reads cone
    (Dung.grounded file.Reads {a | 1 ≤ a ∧ a ≤ file.n} ∩ cone)
  ¬ file.Reads q q → q ∈ left → ¬ Dung.Branching.Contended file.Reads left q

/-- What the output says about the query `q` to the framework of a file. -/
structure Reported (file : I23) (q : ℕ) (cout : List Char) (answer : Bool) (L : List ℕ) :
    Prop where
  read : readReport cout = some (answer, L)
  answer_iff : answer = true ↔
    Dung.SkepticallyAccepted file.Reads {a | 1 ≤ a ∧ a ≤ file.n} q
  witness : file.Uncontended q → L ≠ [] →
    (∃ P, Dung.Preferred file.Reads {a | 1 ≤ a ∧ a ≤ file.n} P ∧ listArgs L ⊆ P) ∧
      ∀ P, Dung.Preferred file.Reads {a | 1 ≤ a ∧ a ≤ file.n} P → listArgs L ⊆ P → q ∉ P

variable {texts : Texts} {start : Start} {g : Garbage} {order : List (ℕ × ℕ)}
  {problem path query : List Char} {q : ℕ}

theorem SolvePrinting.mono {F : AF} {proof : List ℕ}
    {post post' : AF → Bool → List ℕ → List Char → Prop}
    (h : SolvePrinting F q proof post)
    (himp : ∀ F' answer L cout, post F' answer L cout → post' F' answer L cout) :
    SolvePrinting F q proof post' := by
  obtain ⟨F', result, out, hproc, hsolve⟩ := h
  refine ⟨F', result, out, hproc, ?_⟩
  cases result with
  | accepted => exact himp _ _ _ _ hsolve
  | rejected => exact himp _ _ _ _ hsolve
  | unknown =>
    exact hsolve.mono fun _ p _ hend => ⟨hend.1, fun L hL => himp _ _ _ _ (hend.2 L hL)⟩

namespace I23

variable (file : I23)

/-- The framework of a file, built with the attacks visited in the given order. -/
def wellFormed (hn : 2 * file.n < 2 ^ 31) (order : List (ℕ × ℕ))
    (horder : IterationOrder file.pairs.toFinset order) : WellFormed where
  n := file.n
  calls := file.pairs
  order := order
  bound := hn
  inRange := by
    rintro ⟨x, y⟩ hp
    obtain ⟨a, -, rfl, rfl⟩ := file.mem_pairs.mp hp
    exact ⟨a.attacker_mem.1, a.attacker_mem.2, a.victim_mem.1, a.victim_mem.2⟩
  iteration := horder

/-- Reading the file in that order gives that framework, and stays inside the tables. -/
theorem parseAf_text (g : Garbage) (hn : 2 * file.n < 2 ^ 31)
    (horder : IterationOrder file.pairs.toFinset order) :
    Checked.parseAf g order file.text = some (file.wellFormed hn order horder).af := by
  have hp : (header file.text).head? = some 'p' := by
    rw [file.header_text]
    rfl
  have hbounds : Checked.InBounds (headerArgs file.text) order := by
    rw [file.headerArgs_text]
    refine ⟨by omega, fun p hp => ?_⟩
    have hrange := (file.wellFormed hn order horder).inRange p
      (List.mem_toFinset.mp ((horder.mem_iff p).mp hp))
    exact ⟨hrange.2.1, hrange.2.2.2⟩
  rw [Checked.parseAf_eq_ite (readAf_eq_some.mpr ⟨hp, rfl⟩), if_pos hbounds, parseAf, readAf_eq,
    if_pos hp, file.headerArgs_text, file.calls_bodyLines]
  rfl

theorem att_wellFormed {hn : 2 * file.n < 2 ^ 31}
    {horder : IterationOrder file.pairs.toFinset order} :
    (file.wellFormed hn order horder).af.att = file.Reads := by
  funext x y
  rw [AF.att, WellFormed.af, buildAF_attacks]
  exact propext (List.mem_toFinset.trans file.mem_pairs)

theorem args_wellFormed {hn : 2 * file.n < 2 ^ 31}
    {horder : IterationOrder file.pairs.toFinset order} :
    (file.wellFormed hn order horder).af.args = {a | 1 ≤ a ∧ a ≤ file.n} := by
  rw [AF.args, WellFormed.af, buildAF_numArgs]
  rfl

theorem uncontended_iff {hn : 2 * file.n < 2 ^ 31}
    {horder : IterationOrder file.pairs.toFinset order} :
    (file.wellFormed hn order horder).af.Uncontended q ↔ file.Uncontended q := by
  unfold AF.Uncontended AF.searchArgs AF.groundedCone AF.cone
  rw [file.att_wellFormed, file.args_wellFormed]
  rfl

end I23

/-- **The program decides sceptical acceptance.**  Started with options that name the problem
DS-PR, a file in the i23 format and the decimal number of one of its arguments, it returns 0
under every schedule, whatever is in the uninitialised locals and in whatever order the stored
set is visited, and it writes nothing to `cerr`.  A reader who takes the first line of the
output that is an answer gets the sceptical verdict on the framework that the lines of the file
name, and a list.  If the question is not contended and the list is not empty, some preferred
extension includes it, and every one that does omits the query.  (Each task sees the argument and
the flag of its creator, and a list that overlapping assignments have torn is taken to be some
list of numbers.) -/
theorem execute_i23 (texts : Texts) (start : Start) (g : Garbage) (file : I23)
    (hn : 2 * file.n < 2 ^ 31) (hnames : NamesFile start problem path query)
    (hproblem : IsDSPR problem) (hfile : start.files path = some file.text)
    (hquery : Decimal query q) (h1 : 1 ≤ q) (hqn : q ≤ file.n)
    (horder : IterationOrder file.pairs.toFinset order) :
    Execute texts start g order fun outcome => ∃ cout answer L,
      outcome = .returns 0 cout [] ∧ Reported file q cout answer L := by
  let W := file.wellFormed hn order horder
  have hq : q ∈ W.af.args := WellFormed.mem_args h1 hqn
  -- the call of `solve`
  have hcall : executeCall g order file.text query = some (W.af, q) := by
    have hempty : ¬ query.isEmpty = true := fun h => hquery.ne_nil (List.isEmpty_iff.mp h)
    have hq' : intToUnsigned (q : ℤ) = q := by
      unfold intToUnsigned
      omega
    unfold executeCall
    rw [file.parseAf_text g hn horder]
    simp only
    rw [if_neg hempty, stoi_decimal hquery (by omega), Option.map_some, hq']
  have hexecute : execute texts start g order = .solves W.af q := by
    rw [hnames.execute_eq]
    exact executeFile_solves_iff.mpr ⟨file.text, hfile, hproblem, hcall⟩
  -- what it answers and prints
  have hfacts := (W.solve_facts hq).printing W.coherent hq
  unfold Execute
  rw [hexecute]
  refine hfacts.mono fun F' answer L cout => ?_
  rintro ⟨hanswer, hends, hchars⟩
  have hargs : W.af.args = {a | 1 ≤ a ∧ a ≤ file.n} := file.args_wellFormed
  have hatt : W.af.att = file.Reads := file.att_wellFormed
  refine ⟨_, answer, _, rfl, readReport_append hends hchars hanswer.ids, ?_, ?_⟩
  · rw [← hargs, ← hatt]
    exact hanswer.answer_iff
  · intro hsingle hne
    cases answer with
    | true => exact absurd rfl hne
    | false =>
      have hcert := hanswer.certificate (file.uncontended_iff.mpr hsingle) hne
      rw [← hargs, ← hatt]
      exact ⟨hcert.included, hcert.refutes⟩

/-- The file of `choiceFramework`, with a comment. -/
def choiceFile : I23 where
  n := 4
  digits := "4".toList
  lines := [
    .comment "choice".toList (by decide),
    .attack (.ofIds (x := 3) (y := 1) (by decide) (by decide)),
    .attack (.ofIds (x := 3) (y := 3) (by decide) (by decide)),
    .attack (.ofIds (x := 4) (y := 3) (by decide) (by decide)),
    .attack (.ofIds (x := 4) (y := 2) (by decide) (by decide)),
    .attack (.ofIds (x := 2) (y := 4) (by decide) (by decide))]
  newline := true
  bound := by decide
  decimal := decimal_toDigits 4

/-- `-p DS-PR -f c.i23 -a 1`. -/
def choiceStart : Start where
  argc := 7
  argv0 := "solver".toList
  results := [.arg .problem "DS-PR".toList, .arg .file "c.i23".toList, .arg .query "1".toList]
  files := fun path => if path = "c.i23".toList then some choiceFile.text else none

theorem namesFile_choiceStart :
    NamesFile choiceStart "DS-PR".toList "c.i23".toList "1".toList where
  argc := by decide
  noError := by decide
  noFlag := by
    intro f
    cases f <;> decide
  problem_eq := rfl
  problem_ne := by decide
  file_eq := rfl
  file_ne := by decide
  format := by decide
  query_eq := rfl

theorem execute_i23_choice :
    Execute ⟨[], []⟩ choiceStart (fun _ => (0, 0)) choiceFile.pairs fun outcome =>
      ∃ cout answer L, outcome = .returns 0 cout [] ∧ Reported choiceFile 1 cout answer L :=
  execute_i23 ⟨[], []⟩ choiceStart (fun _ => (0, 0)) choiceFile (by decide)
    namesFile_choiceStart (Or.inl rfl) rfl (decimal_toDigits 1) (by decide)
    (by decide) (iterationOrder_self (by decide))

end AFAnalyzer
