import AFAnalyzer.Solver.Execute
import Mathlib.Data.List.DropRight

/-!
# The command line: `Main.cpp`

`getopt_long_only` is not part of the repository.  What `execute` sees of it is the sequence
of its results: a flag that was set, an option with its argument, or an error.  The loop over
them keeps the last argument of each option (`readOptions_eq`).

`execute` is modelled up to the call of `solve`, which is where schedules and models come in
(`Outcome.solves`); what follows the call is the report.  An error of `execute` is a line on
`cerr` and the return value 1, except in `parse_af`, which calls `exit`, and in `stoi`, which
throws.  `main` drops the return value.  Where `finish_initilization` does not stay inside its
tables, the program has no meaning (`Outcome.undefined`).

`execute_outcome` says for all inputs which of these happens.
-/

namespace AFAnalyzer

open Istream ParserICCMA

namespace Enums

/-- `enum task`. -/
inductive Task
  | DC | DS | SE | EE | CE | unknownTask
  deriving DecidableEq

/-- `enum semantics`. -/
inductive Semantics
  | IT | UC | PR | GR | unknownSem
  deriving DecidableEq

/-- `Enums::string_to_task`. -/
def stringToTask (task : List Char) : Task :=
  if task = "DC".toList then .DC
  else if task = "DS".toList then .DS
  else if task = "SE".toList then .SE
  else if task = "EE".toList then .EE
  else if task = "CE".toList then .CE
  else .unknownTask

/-- `Enums::string_to_sem`. -/
def stringToSem (semantics : List Char) : Semantics :=
  if semantics = "IT".toList then .IT
  else if semantics = "UC".toList then .UC
  else if semantics = "PR".toList then .PR
  else if semantics = "GR".toList then .GR
  else .unknownSem

theorem stringToTask_eq_DS {task : List Char} :
    stringToTask task = .DS ↔ task = "DS".toList := by
  constructor
  · intro h
    unfold stringToTask at h
    split at h
    · cases h
    · split at h
      · assumption
      · repeat' split at h
        all_goals cases h
  · rintro rfl
    rfl

theorem stringToSem_eq_PR {semantics : List Char} :
    stringToSem semantics = .PR ↔ semantics = "PR".toList := by
  constructor
  · intro h
    unfold stringToSem at h
    split at h
    · cases h
    · split at h
      · cases h
      · split at h
        · assumption
        · repeat' split at h
          all_goals cases h
  · rintro rfl
    rfl

end Enums

/-! ## The options -/

/-- The long options without an argument. -/
inductive Flag
  | help | version | formats | problems
  deriving DecidableEq

/-- The options with an argument: `-p`, `-f`, `-fo` and `-a`. -/
inductive Opt
  | problem | file | fileformat | query
  deriving DecidableEq

/-- A result of `getopt_long_only` before the -1 at the end. -/
inductive OptResult
  | flag (f : Flag)
  | arg (opt : Opt) (optarg : List Char)
  | error
  deriving DecidableEq

/-- The four flags, and the strings of `execute`. -/
structure Options where
  usageFlag : Bool
  versionFlag : Bool
  formatsFlag : Bool
  problemsFlag : Bool
  problem : List Char
  file : List Char
  fileformat : List Char
  query : List Char
  deriving DecidableEq

/-- Nothing is set. -/
def Options.initial : Options := ⟨false, false, false, false, [], [], [], []⟩

/-- One round of the loop over the options; `none` is `return 1`. -/
def readOption (opts : Options) : OptResult → Option Options
  | .flag .help => some { opts with usageFlag := true }
  | .flag .version => some { opts with versionFlag := true }
  | .flag .formats => some { opts with formatsFlag := true }
  | .flag .problems => some { opts with problemsFlag := true }
  | .arg .problem optarg => some { opts with problem := optarg }
  | .arg .file optarg => some { opts with file := optarg }
  | .arg .fileformat optarg => some { opts with fileformat := optarg }
  | .arg .query optarg => some { opts with query := optarg }
  | .error => none

/-- The loop. -/
def readOptions : Options → List OptResult → Option Options
  | opts, [] => some opts
  | opts, result :: results =>
    match readOption opts result with
    | none => none
    | some opts => readOptions opts results

/-- The argument of an option, if the result is that option. -/
def OptResult.arg? (opt : Opt) : OptResult → Option (List Char)
  | .arg opt' optarg => if opt' = opt then some optarg else none
  | _ => none

/-- The last argument that an option was given. -/
def lastArg (opt : Opt) (results : List OptResult) (default : List Char) : List Char :=
  (results.filterMap (OptResult.arg? opt)).getLastD default

/-- What the loop leaves, one option at a time: a flag is set if it occurs, and the last
argument counts. -/
def optionsOf (opts : Options) (results : List OptResult) : Options where
  usageFlag := opts.usageFlag || decide (.flag .help ∈ results)
  versionFlag := opts.versionFlag || decide (.flag .version ∈ results)
  formatsFlag := opts.formatsFlag || decide (.flag .formats ∈ results)
  problemsFlag := opts.problemsFlag || decide (.flag .problems ∈ results)
  problem := lastArg .problem results opts.problem
  file := lastArg .file results opts.file
  fileformat := lastArg .fileformat results opts.fileformat
  query := lastArg .query results opts.query

variable {opts : Options} {results : List OptResult} {result : OptResult}

theorem lastArg_cons (opt : Opt) (optarg : List Char) : lastArg opt (result :: results) optarg =
    lastArg opt results ((OptResult.arg? opt result).getD optarg) := by
  unfold lastArg
  cases h : OptResult.arg? opt result with
  | none => rw [List.filterMap_cons_none h]; rfl
  | some value =>
    rw [List.filterMap_cons_some h, Option.getD_some]
    cases results.filterMap (OptResult.arg? opt) <;> rfl

/-- One round, and the rest. -/
theorem optionsOf_cons {opts' : Options} (h : readOption opts result = some opts') :
    optionsOf opts (result :: results) = optionsOf opts' results := by
  unfold optionsOf
  simp only [lastArg_cons, List.mem_cons]
  cases result with
  | flag f =>
    cases f
    all_goals
      obtain rfl := Option.some.inj h
      simp [OptResult.arg?]
  | arg opt optarg =>
    cases opt
    all_goals
      obtain rfl := Option.some.inj h
      simp [OptResult.arg?]
  | error => exact absurd h nofun

/-- **The loop in closed form.** -/
theorem readOptions_eq : readOptions opts results =
    if .error ∈ results then none else some (optionsOf opts results) := by
  induction results generalizing opts with
  | nil => simp [readOptions, optionsOf, lastArg]
  | cons result results ih =>
    rw [readOptions]
    cases h : readOption opts result with
    | none =>
      have herror : result = .error := by
        cases result with
        | flag f => cases f <;> exact absurd h nofun
        | arg opt optarg => cases opt <;> exact absurd h nofun
        | error => rfl
      rw [herror, if_pos List.mem_cons_self]
    | some opts' =>
      have hne : OptResult.error ≠ result := by
        rintro rfl
        exact absurd h nofun
      show readOptions opts' results = _
      rw [ih, ← optionsOf_cons h]
      simp [hne]

/-! ## `execute` -/

/-- The texts of `print_version` and `print_usage`, which nothing depends on. -/
structure Texts where
  version : List Char
  usage : List Char

/-- How the program is started: the arguments, what `getopt_long_only` makes of them, and the
files that can be opened. -/
structure Start where
  argc : ℕ
  argv0 : List Char
  results : List OptResult
  files : List Char → Option (List Char)

/-- How `execute` goes on: it returns, `parse_af` calls `exit(1)`, it is undefined because an id
does not fit the tables or the tables are too large for an `int` index, `stoi` throws, or `solve`
is called. -/
inductive Outcome
  | returns (code : ℕ) (cout cerr : List Char)
  | exits (cerr : List Char)
  | undefined
  | throws
  | solves (framework : AF) (argument : ℕ)

/-- An error that `execute` reports. -/
def failure (start : Start) (message : List Char) : Outcome :=
  .returns 1 [] (start.argv0 ++ message)

/-- `print_formats`. -/
def printFormats : List Char := "[i23]\n".toList

/-- `print_problems`: the two loops over the tasks and the semantics. -/
def printProblems (tasks sems : List (List Char)) : List Char :=
  '[' :: (tasks.flatMap fun task => sems.zipIdx.flatMap fun (sem, j) =>
    let problem := task ++ '-' :: sem
    if j ≠ sems.length - 1 then problem ++ [','] else problem) ++ "]\n".toList

/-- `s.substr(0, s.find("-"))`. -/
def beforeDash (s : List Char) : List Char := s.takeWhile (· != '-')

/-- `s.erase(0, s.find("-") + 1)`, which erases nothing when there is no dash: `npos + 1` is 0. -/
def eraseDash (s : List Char) : List Char :=
  if '-' ∈ s then (s.dropWhile (· != '-')).tail else s

/-- The part of a file name after the last point, or all of it. -/
def suffix (file : List Char) : List Char := file.rtakeWhile (· != '.')

/-- The format: the option, or else the suffix of the file. -/
def formatOf (fileformat file : List Char) : List Char :=
  if fileformat.isEmpty = true then suffix file else fileformat

/-- `execute` after the file has been parsed. -/
def executeTask (start : Start) (framework : AF) (problem query : List Char) : Outcome :=
  let task := beforeDash problem
  let problem := eraseDash problem
  let sem := beforeDash problem
  match Enums.stringToTask task with
  | .DS =>
    if query.isEmpty = true then
      failure start ": Query argument must be specified via -a flag\n".toList
    else
      match stoi query with
      | none => .throws
      | some v =>
        match Enums.stringToSem sem with
        | .PR => .solves framework (intToUnsigned v)
        | _ => failure start ": Unsupported semantics\n".toList
  | _ => failure start ": Problem not supported!\n".toList

/-- `execute`, up to the call of `solve`. -/
def execute (texts : Texts) (start : Start) (g : Garbage) (order : List (ℕ × ℕ)) : Outcome :=
  if start.argc = 1 then .returns 0 texts.version []
  else
    match readOptions .initial start.results with
    | none => .returns 1 [] []
    | some opts =>
      if opts.versionFlag = true then .returns 0 texts.version []
      else if opts.usageFlag = true then .returns 0 texts.usage []
      else if opts.formatsFlag = true then .returns 0 printFormats []
      else if opts.problemsFlag = true then
        .returns 0 (printProblems ["DS".toList] ["PR".toList]) []
      else if opts.problem.isEmpty = true then
        failure start ": Problem must be specified via -p flag\n".toList
      else if opts.file.isEmpty = true then
        failure start ": Input file must be specified via -f flag\n".toList
      else if formatOf opts.fileformat opts.file = "i23".toList then
        match start.files opts.file with
        | none => .exits "Cannot open input file\n".toList
        | some text =>
          match readAf g text with
          | none => .exits "File does not comply to ICCMA'23 format\n".toList
          | some framework =>
            match Checked.finishInitilization framework order with
            | none => .undefined
            | some framework => executeTask start framework opts.problem opts.query
      else failure start ": Unsupported file format\n".toList

example : printProblems ["DS".toList] ["PR".toList] = "[DS-PR]\n".toList := by decide

variable {texts : Texts} {start : Start} {g : Garbage} {order : List (ℕ × ℕ)}
  {problem file query text : List Char} {framework : AF} {argument : ℕ}

/-! ## Where it ends -/

/-- The options name a problem and a file in the i23 format, and ask for nothing else. -/
structure NamesFile (start : Start) (problem file query : List Char) : Prop where
  argc : start.argc ≠ 1
  noError : .error ∉ start.results
  noFlag : ∀ f, .flag f ∉ start.results
  problem_eq : lastArg .problem start.results [] = problem
  problem_ne : problem ≠ []
  file_eq : lastArg .file start.results [] = file
  file_ne : file ≠ []
  format : formatOf (lastArg .fileformat start.results []) file = "i23".toList
  query_eq : lastArg .query start.results [] = query

/-- What `execute` does with such options. -/
def executeFile (start : Start) (g : Garbage) (order : List (ℕ × ℕ))
    (problem file query : List Char) : Outcome :=
  match start.files file with
  | none => .exits "Cannot open input file\n".toList
  | some text =>
    match readAf g text with
    | none => .exits "File does not comply to ICCMA'23 format\n".toList
    | some framework =>
      match Checked.finishInitilization framework order with
      | none => .undefined
      | some framework => executeTask start framework problem query

theorem NamesFile.execute_eq (h : NamesFile start problem file query) :
    execute texts start g order = executeFile start g order problem file query := by
  unfold execute
  rw [if_neg h.argc, readOptions_eq, if_neg h.noError]
  simp only [optionsOf, Options.initial, Bool.false_or, h.noFlag, decide_false,
    Bool.false_eq_true, if_false, h.problem_eq, h.file_eq, h.query_eq, List.isEmpty_iff,
    h.problem_ne, h.file_ne, h.format, if_true]
  rfl

/-- Without them it returns. -/
theorem execute_returns (texts : Texts) (g : Garbage) (order : List (ℕ × ℕ))
    (h : ¬ ∃ problem file query, NamesFile start problem file query) :
    ∃ code cout cerr, execute texts start g order = .returns code cout cerr := by
  unfold execute
  rw [readOptions_eq]
  by_cases hargc : start.argc = 1
  · rw [if_pos hargc]
    exact ⟨_, _, _, rfl⟩
  · by_cases herror : .error ∈ start.results
    · rw [if_neg hargc, if_pos herror]
      exact ⟨_, _, _, rfl⟩
    · rw [if_neg hargc, if_neg herror]
      simp only [optionsOf, Options.initial, Bool.false_or, decide_eq_true_eq]
      split_ifs with hversion husage hformats hproblems hproblem hfile hformat
      all_goals try exact ⟨_, _, _, rfl⟩
      -- the only branch that does not return here is the one with all names
      refine absurd ⟨_, _, _, hargc, herror, fun f => ?_, rfl, ?_, rfl, ?_, hformat, rfl⟩ h
      · cases f with
        | help => exact husage
        | version => exact hversion
        | formats => exact hformats
        | problems => exact hproblems
      · exact fun hnil => hproblem (List.isEmpty_iff.mpr hnil)
      · exact fun hnil => hfile (List.isEmpty_iff.mpr hnil)

/-! ## The problem -/

theorem beforeDash_eq_iff {s word : List Char} (hword : '-' ∉ word) :
    beforeDash s = word ↔ s = word ∨ ∃ rest, s = word ++ '-' :: rest := by
  have hletters : ∀ c ∈ word, (c != '-') = true := by
    intro c hc
    rw [bne_iff_ne]
    exact fun h => hword (h ▸ hc)
  constructor
  · rintro rfl
    have hsplit := List.takeWhile_append_dropWhile (p := (· != '-')) (l := s)
    cases hrest : s.dropWhile (· != '-') with
    | nil =>
      rw [hrest, List.append_nil] at hsplit
      exact Or.inl hsplit.symm
    | cons c rest =>
      have hdash := List.head?_dropWhile_not (· != '-') s
      rw [hrest] at hsplit hdash
      obtain rfl : c = '-' := by simpa using hdash
      exact Or.inr ⟨rest, hsplit.symm⟩
  · rintro (rfl | ⟨rest, rfl⟩)
    · exact List.takeWhile_eq_self_iff.mpr hletters
    · refine takeWhile_append_stop hletters fun c hc => ?_
      obtain rfl : '-' = c := Option.some.inj hc
      rfl

theorem eraseDash_append {word : List Char} (hword : '-' ∉ word) (rest : List Char) :
    eraseDash (word ++ '-' :: rest) = rest := by
  have hletters : ∀ c ∈ word, (c != '-') = true := by
    intro c hc
    rw [bne_iff_ne]
    exact fun h => hword (h ▸ hc)
  have hstop : ∀ c ∈ ('-' :: rest).head?, (c != '-') = false := by
    intro c hc
    obtain rfl : '-' = c := Option.some.inj hc
    rfl
  have hmem : '-' ∈ word ++ '-' :: rest := List.mem_append_right _ List.mem_cons_self
  rw [eraseDash, if_pos hmem, dropWhile_append_stop hletters hstop, List.tail_cons]

/-- The task is DS. -/
def IsDS (problem : List Char) : Prop :=
  problem = "DS".toList ∨ ∃ rest, problem = "DS".toList ++ '-' :: rest

/-- The problem is DS-PR, whatever follows a second dash. -/
def IsDSPR (problem : List Char) : Prop :=
  problem = "DS-PR".toList ∨ ∃ rest, problem = "DS-PR".toList ++ '-' :: rest

theorem stringToTask_iff : Enums.stringToTask (beforeDash problem) = .DS ↔ IsDS problem := by
  rw [Enums.stringToTask_eq_DS, beforeDash_eq_iff (by decide)]
  rfl

/-- **Which problems are solved.** -/
theorem isDSPR_iff : IsDSPR problem ↔ Enums.stringToTask (beforeDash problem) = .DS ∧
    Enums.stringToSem (beforeDash (eraseDash problem)) = .PR := by
  have hDS : '-' ∉ "DS".toList := by decide
  have hPR : '-' ∉ "PR".toList := by decide
  rw [stringToTask_iff, Enums.stringToSem_eq_PR, beforeDash_eq_iff hPR]
  constructor
  · rintro (rfl | ⟨rest, rfl⟩)
    · exact ⟨Or.inr ⟨"PR".toList, rfl⟩, Or.inl (eraseDash_append hDS "PR".toList)⟩
    · refine ⟨Or.inr ⟨"PR".toList ++ '-' :: rest, rfl⟩, Or.inr ⟨rest, ?_⟩⟩
      exact eraseDash_append hDS ("PR".toList ++ '-' :: rest)
  · rintro ⟨rfl | ⟨rest, rfl⟩, hsem⟩
    · have herase : eraseDash "DS".toList = "DS".toList := by decide
      rw [herase] at hsem
      rcases hsem with h | ⟨rest, h⟩
      · exact absurd h (by decide)
      · exact absurd (congrArg (fun s => '-' ∈ s) h) (by simp)
    · rw [eraseDash_append hDS] at hsem
      rcases hsem with rfl | ⟨rest', rfl⟩
      · exact Or.inl rfl
      · exact Or.inr ⟨rest', rfl⟩

/-! ## Outcomes -/

theorem readAf_eq_none (g : Garbage) (text : List Char) :
    readAf g text = none ↔ (header text).head? ≠ some 'p' := by
  rw [readAf_eq]
  split
  · next h => exact iff_of_false (Option.some_ne_none _) fun hne => hne h
  · next h => exact iff_of_true rfl h

theorem executeTask_solves_iff {F : AF} : executeTask start F problem query =
    .solves framework argument ↔ IsDSPR problem ∧ (if query.isEmpty = true then none
      else (stoi query).map fun v => (F, intToUnsigned v)) = some (framework, argument) := by
  rw [isDSPR_iff, executeTask]
  cases htask : Enums.stringToTask (beforeDash problem) with
  | DS =>
    simp only
    split
    · exact iff_of_false nofun fun h => absurd h.2 nofun
    · cases hstoi : stoi query with
      | none => exact iff_of_false nofun fun h => absurd h.2 nofun
      | some v =>
        cases hsem : Enums.stringToSem (beforeDash (eraseDash problem)) with
        | PR => simp
        | _ => exact iff_of_false nofun fun h => absurd h.1.2 nofun
  | _ => exact iff_of_false nofun fun h => absurd h.1.1 nofun

theorem executeTask_throws_iff : executeTask start framework problem query = .throws ↔
    IsDS problem ∧ ¬ query.isEmpty = true ∧ stoi query = none := by
  rw [← stringToTask_iff, executeTask]
  cases htask : Enums.stringToTask (beforeDash problem) with
  | DS =>
    simp only
    split
    · next hempty => exact iff_of_false nofun fun h => h.2.1 hempty
    · next hquery =>
      cases hstoi : stoi query with
      | none => exact iff_of_true rfl ⟨trivial, hquery, rfl⟩
      | some v =>
        refine iff_of_false ?_ fun h => absurd h.2.2 nofun
        cases Enums.stringToSem (beforeDash (eraseDash problem)) <;> exact nofun
  | _ => exact iff_of_false nofun fun h => absurd h.1 nofun

/-- Past `parse_af` nothing calls `exit`, and nothing is undefined. -/
theorem executeTask_defined : (∀ cerr, executeTask start framework problem query ≠ .exits cerr) ∧
    executeTask start framework problem query ≠ .undefined := by
  rw [executeTask]
  cases htask : Enums.stringToTask (beforeDash problem) with
  | DS =>
    by_cases hquery : query.isEmpty = true
    · rw [if_pos hquery]
      exact ⟨nofun, nofun⟩
    · rw [if_neg hquery]
      cases hstoi : stoi query with
      | none => exact ⟨nofun, nofun⟩
      | some v =>
        cases Enums.stringToSem (beforeDash (eraseDash problem)) <;> exact ⟨nofun, nofun⟩
  | _ => exact ⟨nofun, nofun⟩

/-- What happens to a file that can be opened. -/
theorem executeFile_cases (g : Garbage) (order : List (ℕ × ℕ)) (problem query : List Char)
    (hopen : start.files file = some text) :
    ((header text).head? ≠ some 'p' ∧ executeFile start g order problem file query =
      .exits "File does not comply to ICCMA'23 format\n".toList) ∨
    ((header text).head? = some 'p' ∧ ¬ Checked.InBounds (headerArgs text) order ∧
      Checked.parseAf g order text = none ∧
      executeFile start g order problem file query = .undefined) ∨
    (header text).head? = some 'p' ∧ Checked.InBounds (headerArgs text) order ∧
      ∃ F, Checked.parseAf g order text = some F ∧
        executeFile start g order problem file query = executeTask start F problem query := by
  unfold executeFile Checked.parseAf
  rw [hopen]
  simp only
  cases hread : readAf g text with
  | none => exact Or.inl ⟨(readAf_eq_none g text).mp hread, rfl⟩
  | some F =>
    have hp := (readAf_eq_some.mp hread).1
    obtain ⟨hF, hnum⟩ := Checked.initialized_of_readAf hread
    simp only [Option.bind_some]
    rw [Checked.finishInitilization_eq_ite hF, hnum]
    by_cases hbounds : Checked.InBounds (headerArgs text) order
    · rw [if_pos hbounds]
      exact Or.inr (Or.inr ⟨hp, hbounds, _, rfl, rfl⟩)
    · rw [if_neg hbounds]
      exact Or.inr (Or.inl ⟨hp, hbounds, rfl, rfl⟩)

theorem executeFile_solves_iff : executeFile start g order problem file query =
    .solves framework argument ↔ ∃ text, start.files file = some text ∧ IsDSPR problem ∧
      executeCall g order text query = some (framework, argument) := by
  cases hopen : start.files file with
  | none =>
    rw [executeFile, hopen]
    exact iff_of_false (by rintro ⟨⟩) (by rintro ⟨_, h, -⟩; cases h)
  | some text =>
    simp only [Option.some.injEq, exists_eq_left', executeCall]
    rcases executeFile_cases g order problem query hopen with
      ⟨hp, h⟩ | ⟨-, -, hparse, h⟩ | ⟨-, -, F, hparse, h⟩
    · rw [h, Checked.parseAf, (readAf_eq_none g text).mpr hp]
      exact iff_of_false (by rintro ⟨⟩) (by rintro ⟨-, ⟨⟩⟩)
    · rw [h, hparse]
      exact iff_of_false (by rintro ⟨⟩) (by rintro ⟨-, ⟨⟩⟩)
    · rw [h, hparse]
      exact executeTask_solves_iff

theorem executeFile_exits_iff {cerr : List Char} :
    executeFile start g order problem file query = .exits cerr ↔
      start.files file = none ∧ cerr = "Cannot open input file\n".toList ∨
      ∃ text, start.files file = some text ∧ (header text).head? ≠ some 'p' ∧
        cerr = "File does not comply to ICCMA'23 format\n".toList := by
  cases hopen : start.files file with
  | none =>
    rw [executeFile, hopen]
    simp [eq_comm]
  | some text =>
    simp only [Option.some.injEq, exists_eq_left', reduceCtorEq, false_and, false_or]
    rcases executeFile_cases g order problem query hopen with
      ⟨hp, h⟩ | ⟨hp, -, -, h⟩ | ⟨hp, -, F, -, h⟩
    · rw [h, Outcome.exits.injEq]
      exact ⟨fun h => ⟨hp, h.symm⟩, fun h => h.2.symm⟩
    · rw [h]
      exact iff_of_false nofun fun h => h.1 hp
    · rw [h]
      exact iff_of_false (executeTask_defined.1 cerr) fun h => h.1 hp

theorem executeFile_undefined_iff : executeFile start g order problem file query = .undefined ↔
    ∃ text, start.files file = some text ∧ (header text).head? = some 'p' ∧
      ¬ Checked.InBounds (headerArgs text) order := by
  cases hopen : start.files file with
  | none =>
    rw [executeFile, hopen]
    exact iff_of_false (by rintro ⟨⟩) (by rintro ⟨_, h, -⟩; cases h)
  | some text =>
    simp only [Option.some.injEq, exists_eq_left']
    rcases executeFile_cases g order problem query hopen with
      ⟨hp, h⟩ | ⟨hp, hbounds, -, h⟩ | ⟨hp, hbounds, F, -, h⟩
    · rw [h]
      exact iff_of_false nofun fun h => hp h.1
    · rw [h]
      exact iff_of_true rfl ⟨hp, hbounds⟩
    · rw [h]
      exact iff_of_false executeTask_defined.2 fun h => h.2 hbounds

theorem executeFile_throws_iff : executeFile start g order problem file query = .throws ↔
    ∃ text, start.files file = some text ∧ (header text).head? = some 'p' ∧
      Checked.InBounds (headerArgs text) order ∧ IsDS problem ∧ query ≠ [] ∧
        stoi query = none := by
  cases hopen : start.files file with
  | none =>
    rw [executeFile, hopen]
    exact iff_of_false (by rintro ⟨⟩) (by rintro ⟨_, h, -⟩; cases h)
  | some text =>
    simp only [Option.some.injEq, exists_eq_left']
    rcases executeFile_cases g order problem query hopen with
      ⟨hp, h⟩ | ⟨-, hbounds, -, h⟩ | ⟨hp, hbounds, F, -, h⟩
    · rw [h]
      exact iff_of_false nofun fun h => hp h.1
    · rw [h]
      exact iff_of_false nofun fun h => hbounds h.2.1
    · rw [h, executeTask_throws_iff, List.isEmpty_iff]
      simp only [hp, hbounds, true_and]

/-- The options determine the names. -/
theorem NamesFile.exists_iff (h : NamesFile start problem file query)
    {P : List Char → List Char → List Char → Prop} :
    (∃ problem' file' query', NamesFile start problem' file' query' ∧ P problem' file' query') ↔
      P problem file query := by
  constructor
  · rintro ⟨problem', file', query', hother, hP⟩
    obtain rfl := hother.problem_eq.symm.trans h.problem_eq
    obtain rfl := hother.file_eq.symm.trans h.file_eq
    obtain rfl := hother.query_eq.symm.trans h.query_eq
    exact hP
  · exact fun hP => ⟨problem, file, query, h, hP⟩

/-- **Where `execute` ends.**  Take options that name a problem and a file in the i23 format.  It
calls `exit` exactly if the file cannot be opened or does not start with `p`, whatever the problem
and the query are.  It is undefined exactly if the file starts with `p` and the visited attacks do
not fit the number of arguments in its header, or that number does not fit an `int` index.
For a file that fits it calls `solve` exactly if the problem is DS-PR and `stoi` converts the
query, and it throws exactly if the problem is DS and `stoi` does not convert the query.
Otherwise it returns. -/
theorem execute_outcome (texts : Texts) (start : Start) (g : Garbage) (order : List (ℕ × ℕ)) :
    (∀ framework argument, execute texts start g order = .solves framework argument ↔
      ∃ problem file query, NamesFile start problem file query ∧
        ∃ text, start.files file = some text ∧ IsDSPR problem ∧
          executeCall g order text query = some (framework, argument)) ∧
    (∀ cerr, execute texts start g order = .exits cerr ↔
      ∃ problem file query, NamesFile start problem file query ∧
        (start.files file = none ∧ cerr = "Cannot open input file\n".toList ∨
          ∃ text, start.files file = some text ∧ (header text).head? ≠ some 'p' ∧
            cerr = "File does not comply to ICCMA'23 format\n".toList)) ∧
    (execute texts start g order = .undefined ↔
      ∃ problem file query, NamesFile start problem file query ∧
        ∃ text, start.files file = some text ∧ (header text).head? = some 'p' ∧
          ¬ Checked.InBounds (headerArgs text) order) ∧
    (execute texts start g order = .throws ↔
      ∃ problem file query, NamesFile start problem file query ∧
        ∃ text, start.files file = some text ∧ (header text).head? = some 'p' ∧
          Checked.InBounds (headerArgs text) order ∧ IsDS problem ∧ query ≠ [] ∧
            stoi query = none) := by
  by_cases hnames : ∃ problem file query, NamesFile start problem file query
  · obtain ⟨problem, file, query, hnames⟩ := hnames
    simp only [hnames.exists_iff, hnames.execute_eq]
    exact ⟨fun _ _ => executeFile_solves_iff, fun _ => executeFile_exits_iff,
      executeFile_undefined_iff, executeFile_throws_iff⟩
  · obtain ⟨code, cout, cerr, hreturns⟩ := execute_returns texts g order hnames
    rw [hreturns]
    exact ⟨fun _ _ => iff_of_false nofun fun ⟨problem, file, query, h, _⟩ =>
        hnames ⟨problem, file, query, h⟩,
      fun _ => iff_of_false nofun fun ⟨problem, file, query, h, _⟩ =>
        hnames ⟨problem, file, query, h⟩,
      iff_of_false nofun fun ⟨problem, file, query, h, _⟩ => hnames ⟨problem, file, query, h⟩,
      iff_of_false nofun fun ⟨problem, file, query, h, _⟩ => hnames ⟨problem, file, query, h⟩⟩

end AFAnalyzer
