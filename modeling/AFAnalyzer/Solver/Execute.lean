import AFAnalyzer.Checked.Construction

/-!
# `execute`: from the input text and the query to the call of `solve`

`execute` parses the file, refuses an empty query, converts the query with `stoi` and calls
the solver.  Nothing on this way compares an id or the query with the number of arguments:
`add_attack` tests for a negative value, which an unsigned one never is, and
`finish_initilization` indexes by the ids at once.  Where it indexes outside its tables nothing is
said about what comes after (`Checked.parseAf`).

`solverPreconditions_iff` says for which texts and queries the ids and the query are in range
all the same.  It leaves aside headers of `2 ^ 31 - 1` and more, for which the tables of
`finish_initilization` take at least `2 ^ 63` bytes: there the program dies in the allocation,
before it indexes by an id.
-/

namespace AFAnalyzer

open Istream ParserICCMA

/-- The framework and the argument with which `execute` calls `solve` for the task DS-PR;
`none` when it ends before, with an error or an exception, or is not defined. -/
def executeCall (g : Garbage) (order : List (ℕ × ℕ)) (text query : List Char) :
    Option (AF × ℕ) :=
  match Checked.parseAf g order text with
  | none => none
  | some framework =>
    if query.isEmpty = true then none
    else (stoi query).map fun argument => (framework, intToUnsigned argument)

/-- A run of `execute` that calls `solve`. -/
def CallsSolve (g : Garbage) (text query : List Char) (F : AF) (argument : ℕ) : Prop :=
  ∃ F₀ order, readAf g text = some F₀ ∧ IterationOrder F₀.attacks order ∧
    executeCall g order text query = some (F, argument)

/-- In every run whose tables can be allocated, the stored attacks relate arguments of the
framework before `finish_initilization` indexes by them, it indexes inside its tables, and `solve`
is called with an argument of the framework. -/
structure SolverPreconditions (text query : List Char) : Prop where
  attacks : ∀ g F, readAf g text = some F → F.numArgs < 2 ^ 31 - 1 →
    ∀ x y, (x, y) ∈ F.attacks → x ∈ F.args ∧ y ∈ F.args
  indices : ∀ g F order, readAf g text = some F → F.numArgs < 2 ^ 31 - 1 →
    IterationOrder F.attacks order → (Checked.finishInitilization F order).isSome = true
  query : ∀ g F argument, CallsSolve g text query F argument → argument ∈ F.args

/-- A line with two ids in `1..n`. -/
def InRangeLine (n : ℕ) (line : List Char) : Prop :=
  ∃ x y, ReadsPair line x y ∧ (1 ≤ x ∧ x ≤ n) ∧ 1 ≤ y ∧ y ≤ n

/-- All ids of the text and the query are in range. -/
structure InRange (text query : List Char) : Prop where
  lines : ∀ line ∈ attackLines text, InRangeLine (headerArgs text) line
  query : ∀ v, stoi query = some v → 1 ≤ intToUnsigned v ∧ intToUnsigned v ≤ headerArgs text

variable {g : Garbage} {text query line : List Char} {F : AF} {n argument : ℕ}

/-- A line is in range exactly when everything it may leave is. -/
theorem leaves_inRange_iff (hn : n < 2 ^ 31) :
    (∀ x y, Leaves line x y → (1 ≤ x ∧ x ≤ n) ∧ 1 ≤ y ∧ y ≤ n) ↔ InRangeLine n line := by
  constructor
  · intro hall
    rcases field_cases line with h | h | h | ⟨x, rest, h⟩
    · exact absurd (hall _ _ (Leaves.blank h 0 0)).1.1 (by decide)
    · exact absurd (hall _ _ (Leaves.noNumber h 0)).1.1 (by decide)
    · exact absurd (hall _ _ (Leaves.tooLarge h 0)).2.1 (by decide)
    · rcases field_cases rest with h' | h' | h' | ⟨y, rest', h'⟩
      · exact absurd (hall _ _ (Leaves.one h h' 0)).2.1 (by decide)
      · exact absurd (hall _ _ (Leaves.secondNoNumber h h')).2.1 (by decide)
      · have hmax := (hall _ _ (Leaves.secondTooLarge h h')).2.2
        omega
      · have hpair : ReadsPair line x y := ⟨rest, rest', h, h'⟩
        exact ⟨x, y, hpair, hall _ _ (Leaves.two hpair)⟩
  · rintro ⟨a, b, hpair, hrange⟩ x y hleaves
    obtain ⟨init, hinit⟩ := hleaves.exists_readAttack
    rw [readAttack_pair hpair] at hinit
    obtain ⟨rfl, rfl⟩ := Prod.mk.inj hinit
    exact hrange

theorem numArgs_finishInitilization {F' : AF} {order : List (ℕ × ℕ)}
    (hF : Checked.Initialized F) (h : Checked.finishInitilization F order = some F') :
    F.numArgs < 2 ^ 31 - 1 ∧ F'.numArgs = F.numArgs := by
  rw [Checked.finishInitilization_eq_ite hF] at h
  split at h
  · next hbounds =>
    obtain rfl := Option.some.inj h
    exact ⟨hbounds.1, rfl⟩
  · exact absurd h.symm (Option.some_ne_none F')

/-- `solve` is called when `finish_initilization` returns, for a query that `stoi` converts. -/
theorem callsSolve_iff : CallsSolve g text query F argument ↔
    (∃ F₀ order, readAf g text = some F₀ ∧ IterationOrder F₀.attacks order ∧
      Checked.finishInitilization F₀ order = some F) ∧
    ∃ v, stoi query = some v ∧ argument = intToUnsigned v := by
  have hempty : ∀ v, stoi query = some v → ¬ query.isEmpty = true := by
    intro v hv hnil
    have hnone : stoi [] = none := rfl
    rw [List.isEmpty_iff.mp hnil, hnone] at hv
    exact absurd hv.symm (Option.some_ne_none v)
  constructor
  · rintro ⟨F₀, order, hread, horder, hcall⟩
    unfold executeCall at hcall
    rw [Checked.parseAf, hread, Option.bind_some] at hcall
    cases hfinish : Checked.finishInitilization F₀ order with
    | none =>
      rw [hfinish] at hcall
      exact absurd hcall.symm (Option.some_ne_none _)
    | some F' =>
      rw [hfinish] at hcall
      simp only at hcall
      split at hcall
      · exact absurd hcall.symm (Option.some_ne_none _)
      · obtain ⟨v, hv, heq⟩ := Option.map_eq_some_iff.mp hcall
        obtain ⟨rfl, rfl⟩ := Prod.mk.inj heq
        exact ⟨⟨F₀, order, hread, horder, hfinish⟩, v, hv, rfl⟩
  · rintro ⟨⟨F₀, order, hread, horder, hfinish⟩, v, hv, rfl⟩
    refine ⟨F₀, order, hread, horder, ?_⟩
    unfold executeCall
    rw [Checked.parseAf, hread, Option.bind_some, hfinish]
    simp only
    rw [if_neg (hempty v hv), hv, Option.map_some]

/-- **For which inputs the solver's preconditions hold.** -/
theorem solverPreconditions_iff (text query : List Char) : SolverPreconditions text query ↔
    ((header text).head? = some 'p' → headerArgs text < 2 ^ 31 - 1 → InRange text query) := by
  constructor
  · intro hpre hp hn
    refine ⟨fun line hline => (leaves_inRange_iff (by omega)).mp fun x y hleaves => ?_,
      fun v hv => ?_⟩
    · obtain ⟨g, F, hread, hmem⟩ := exists_readAf_of_leaves hp hline hleaves
      have hnum := (attacks_of_readAf hread).1
      have hargs := hpre.attacks g F hread (hnum ▸ hn) x y hmem
      unfold AF.args at hargs
      rw [hnum] at hargs
      exact hargs
    · -- any run will do
      obtain ⟨F₀, hread⟩ : ∃ F₀, readAf (fun _ => (0, 0)) text = some F₀ :=
        ⟨_, readAf_eq_some.mpr ⟨hp, rfl⟩⟩
      obtain ⟨hF, hnum⟩ := Checked.initialized_of_readAf hread
      have horder := iterationOrder_toList F₀.attacks
      obtain ⟨F, hfinish⟩ := Option.isSome_iff_exists.mp
        (hpre.indices _ F₀ _ hread (hnum ▸ hn) horder)
      have harg := hpre.query _ F _
        (callsSolve_iff.mpr ⟨⟨F₀, _, hread, horder, hfinish⟩, v, hv, rfl⟩)
      unfold AF.args at harg
      rw [(numArgs_finishInitilization hF hfinish).2, hnum] at harg
      exact harg
  · intro hrange
    have hattacks : ∀ g F, readAf g text = some F → F.numArgs < 2 ^ 31 - 1 →
        ∀ x y, (x, y) ∈ F.attacks → x ∈ F.args ∧ y ∈ F.args := by
      intro g F hread hn x y hmem
      have hnum := (attacks_of_readAf hread).1
      obtain ⟨line, hline, hleaves⟩ := exists_leaves_of_mem_attacks hread hmem
      have hline := (hrange (readAf_eq_some.mp hread).1 (hnum ▸ hn)).lines line hline
      rw [← hnum] at hline
      exact (leaves_inRange_iff (by omega)).mpr hline x y hleaves
    refine ⟨hattacks, fun g F order hread hn horder => ?_, fun g F argument hcall => ?_⟩
    · have hbounds : Checked.InBounds F.numArgs order := by
        refine ⟨hn, fun p hp => ?_⟩
        obtain ⟨hx, hy⟩ := hattacks g F hread hn p.1 p.2 ((horder.mem_iff p).mp hp)
        exact ⟨hx.2, hy.2⟩
      rw [Checked.finishInitilization_eq_ite (Checked.initialized_of_readAf hread).1,
        if_pos hbounds]
      rfl
    · obtain ⟨⟨F₀, order, hread, horder, hfinish⟩, v, hv, rfl⟩ := callsSolve_iff.mp hcall
      obtain ⟨hF, hnum⟩ := Checked.initialized_of_readAf hread
      obtain ⟨hn, hnum'⟩ := numArgs_finishInitilization hF hfinish
      unfold AF.args
      rw [hnum', hnum]
      exact (hrange (readAf_eq_some.mp hread).1 (hnum ▸ hn)).query v hv

/-- The id 0 is stored, and `finish_initilization` and the encoding take it for an argument. -/
theorem not_solverPreconditions_zero :
    ¬ SolverPreconditions "p af 2\n0 1\n".toList "1".toList := by
  intro hpre
  have hmem := hpre.attacks (fun _ => (0, 0)) _ rfl (by decide) 0 1 (by decide)
  exact absurd hmem.1 (by decide)

end AFAnalyzer
