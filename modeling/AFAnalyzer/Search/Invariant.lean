import AFAnalyzer.Search.Machine

/-!
# What holds of every activation

`ExtensionOk` is the invariant of the extension that is built along the task tree: it
is duplicate-free and admissible among the active arguments, does not contain the
query, and does not attack it.  The last two are what the two checks of
`ScepticalCheck` are for.  `Activation.Ok` adds, point by point, what the local
variables mean: the reduct is the reduct of the extension, the clauses of the solver
imply the encoding, and until the first answer they are the encoding.

`Activation.Ok.advance` is the step lemma.  From it `SearchInv`, the invariant of the
whole region, holds in every state of every lawful run (`SearchInv.run`).  In
particular no run reaches one of the error exits.
-/

namespace AFAnalyzer

open SatSolverCadical

/-- The inputs on which the search is called: a set of active arguments that contains
the query, and a query that does not attack itself. -/
structure SearchInput (F : AF) (A : VectorBitSet) (q : ℕ) : Prop where
  coherent : F.Coherent
  agrees : VectorBitSet.Matches F.numArgs A
  range : ∀ a ∈ A.vector, a ∈ F.args
  query_mem : q ∈ A.vector
  notSelf : ¬ F.att q q

/-- What holds of the extension built so far. -/
structure ExtensionOk (F : AF) (A : VectorBitSet) (q : ℕ) (E : List ℕ) : Prop where
  nodup : E.Nodup
  admissible : Dung.Admissible F.att A.args (listArgs E)
  notMem : q ∉ E
  notAttacked : ¬ Dung.Attacks F.att (listArgs E) q

variable {F : AF} {A R : VectorBitSet} {q : ℕ} {E S : List ℕ}

theorem extensionOk_nil : ExtensionOk F A q [] where
  nodup := List.nodup_nil
  admissible := by
    rw [listArgs_nil]
    exact Dung.admissible_empty
  notMem := List.not_mem_nil
  notAttacked := by
    rw [listArgs_nil]
    exact Dung.not_attacks_empty

/-- The query stays in the reduct. -/
theorem ExtensionOk.query_mem (hE : ExtensionOk F A q E) (hin : SearchInput F A q)
    (hR : IsReduct F A E R) : q ∈ R.vector := by
  have hmem : q ∈ R.args := by
    rw [hR.args]
    exact ⟨hin.query_mem, hE.notMem, hE.notAttacked⟩
  exact hmem

/-! ## Decoded sets -/

/-- What is known of a set that the solver has found in the reduct of `E`. -/
structure Found (F : AF) (A R : VectorBitSet) (E S : List ℕ) : Prop where
  reduct : IsReduct F A E R
  nodup : S.Nodup
  nonempty : S ≠ []
  admissible : Dung.Admissible F.att R.args (listArgs S)

theorem Found.mem_reduct {a : ℕ} (h : Found F A R E S) (ha : a ∈ S) : a ∈ R.vector :=
  h.admissible.subset ha

theorem Found.notMem_extension {a : ℕ} (h : Found F A R E S) (ha : a ∈ S) : a ∉ E := by
  have hmem := h.admissible.subset ha
  rw [h.reduct.args] at hmem
  exact hmem.2.1

/-- The extension and the found set together are admissible. -/
theorem Found.admissible_extend (h : Found F A R E S)
    (hE : Dung.Admissible F.att A.args (listArgs E)) :
    Dung.Admissible F.att A.args (listArgs (extendExtension E S)) := by
  have hS := h.admissible
  rw [h.reduct.args] at hS
  rw [listArgs_extendExtension]
  exact hE.union_of_reduct hS

/-- **A found set that passes both checks extends the extension.** -/
theorem Found.extend (h : Found F A R E S) (hF : F.Coherent) (hE : ExtensionOk F A q E)
    (hpasses : checkRejection q S F = false)
    (homits : checkTerminateExtensionBuild q S = false) :
    ExtensionOk F A q (extendExtension E S) where
  nodup := nodup_extendExtension hE.nodup h.nodup fun _ ha hS => h.notMem_extension hS ha
  admissible := h.admissible_extend hE.admissible
  notMem := by
    rw [mem_extendExtension, not_or]
    refine ⟨hE.notMem, fun hq => ?_⟩
    rw [checkTerminateExtensionBuild_iff.mpr hq] at homits
    exact Bool.noConfusion homits
  notAttacked := by
    rw [listArgs_extendExtension, Dung.attacks_union, not_or]
    refine ⟨hE.notAttacked, fun hq => ?_⟩
    rw [(checkRejection_iff hF).mpr hq] at hpasses
    exact Bool.noConfusion hpasses

/-- The set read off a model of clauses that imply the encoding. -/
theorem found_of_satisfies (hin : SearchInput F A q) (hR : IsReduct F A E R)
    {s : SatSolverCadical} {v : ℕ → Bool} (hmodel : s.model = some v)
    (hv : Sat.Satisfies v (encodingClauses F R)) :
    getSetFromSolver s R = R.vector.filter v ∧ Found F A R E (getSetFromSolver s R) := by
  have hrange := hR.range hin.range
  have hdecode : getSetFromSolver s R = R.vector.filter v :=
    getSetFromSolver_eq hmodel fun a ha => hin.coherent.id_range (hrange a ha)
  obtain ⟨hadm, a, ha, hva⟩ := admissible_of_satisfies hin.coherent hR.agrees hrange hv
  have hargs : listArgs (R.vector.filter v) = acceptedArgs R v := by
    ext a
    exact List.mem_filter
  refine ⟨hdecode, hR, ?_, ?_, ?_⟩
  · rw [hdecode]
    exact hR.agrees.nodup.filter _
  · rw [hdecode]
    exact List.ne_nil_of_mem (List.mem_filter.mpr ⟨ha, hva⟩)
  · rw [hdecode, hargs]
    exact hadm

/-! ## The invariant of an activation -/

/-- The points at which the solver exists. -/
def Point.Inside (p : Point) : Prop :=
  p = .pollEncoded ∨ p = .loopHead ∨ p = .answered ∨ p = .pollLoop

instance (p : Point) : Decidable p.Inside := inferInstanceAs (Decidable (_ ∨ _))

/-- The points at which a rejecting set is handed over. -/
def Point.HandsOver (p : Point) : Prop := p = .handOver ∨ p = .assigning

instance (p : Point) : Decidable p.HandsOver := inferInstanceAs (Decidable (_ ∨ _))

/-- The points past the loop. -/
def Point.Done (p : Point) : Prop :=
  p = .handOver ∨ p = .assigning ∨ p = .leaving ∨ p = .returned

namespace Activation

variable {a b : Activation} {e : Effect} {flag : Bool} {answer : Option (ℕ → Bool)}

/-- The state of the solver and of the reduct while the solver exists. -/
structure Encoded (F : AF) (A : VectorBitSet) (a : Activation) : Prop where
  reduct : IsReduct F A a.extensionBuild a.reduct
  pending : a.solver.cadical.pending = []
  sound : ∀ v, Sat.Satisfies v a.solver.cadical.clauses →
    Sat.Satisfies v (encodingClauses F a.reduct)
  first : a.isFirstCalculation = true → a.solver.cadical.clauses = encodingClauses F a.reduct

/-- **What holds of an activation**, by the point at which it stands. -/
structure Ok (F : AF) (A : VectorBitSet) (q : ℕ) (a : Activation) : Prop where
  argument : a.argument = q
  isRejected : a.isRejected = flagCell
  extension : ExtensionOk F A q a.extensionBuild
  encoded : a.point.Inside → a.Encoded F A
  tmp : a.point = .loopHead ∨ a.point = .answered → a.isRejectedTmp = false
  unsolved : a.point = .pollEncoded → a.isFirstCalculation = true ∧ a.isSolved = false
  loopHead : a.point = .loopHead → a.isFirstCalculation = !a.isSolved
  answered : a.point = .answered → a.isSolved = true
  sat : a.point = .answered → a.hasSolution = true →
    ∃ v, a.solver.model = some v ∧ Sat.Satisfies v a.solver.cadical.clauses
  unsat : a.point = .answered → a.hasSolution = false →
    ∀ v, ¬ Sat.Satisfies v a.solver.cadical.clauses
  pollLoop : a.point = .pollLoop →
    a.isFirstCalculation = false ∧ a.isSolved = true ∧ a.hasSolution = true
  handOver : a.point.HandsOver →
    Dung.Admissible F.att A.args (listArgs (extendExtension a.extensionBuild a.initialSet)) ∧
      Dung.Attacks F.att (listArgs (extendExtension a.extensionBuild a.initialSet)) q

theorem ok_enter {creator : Option ℕ} (hE : ExtensionOk F A q E) :
    (enter creator q flagCell E).Ok F A q where
  argument := rfl
  isRejected := rfl
  extension := hE
  encoded := fun h => absurd h (by decide : ¬ Point.entry.Inside)
  tmp := by rintro (h | h) <;> cases h
  unsolved := nofun
  loopHead := nofun
  answered := nofun
  sat := nofun
  unsat := nofun
  pollLoop := nofun
  handOver := fun h => absurd h (by decide : ¬ Point.entry.HandsOver)

/-- An activation past its loop has only its parameters left. -/
theorem ok_of_parameters (hok : a.Ok F A q)
    (same : b.argument = a.argument ∧ b.isRejected = a.isRejected ∧
      b.extensionBuild = a.extensionBuild ∧ b.creator = a.creator)
    (hpoint : b.point = .encode ∨ b.point = .leaving ∨ b.point = .returned) : b.Ok F A q := by
  have hne : ∀ p : Point, p ≠ .encode → p ≠ .leaving → p ≠ .returned → b.point ≠ p := by
    rintro p h1 h2 h3 rfl
    rcases hpoint with h | h | h
    · exact h1 h
    · exact h2 h
    · exact h3 h
  refine
    { argument := same.1.trans hok.argument
      isRejected := same.2.1.trans hok.isRejected
      extension := by
        rw [same.2.2.1]
        exact hok.extension
      encoded := ?_
      tmp := ?_
      unsolved := fun h => absurd h (hne _ nofun nofun nofun)
      loopHead := fun h => absurd h (hne _ nofun nofun nofun)
      answered := fun h => absurd h (hne _ nofun nofun nofun)
      sat := fun h => absurd h (hne _ nofun nofun nofun)
      unsat := fun h => absurd h (hne _ nofun nofun nofun)
      pollLoop := fun h => absurd h (hne _ nofun nofun nofun)
      handOver := ?_ }
  · rintro (h | h | h | h)
    all_goals exact absurd h (hne _ nofun nofun nofun)
  · rintro (h | h)
    all_goals exact absurd h (hne _ nofun nofun nofun)
  · rintro (h | h)
    all_goals exact absurd h (hne _ nofun nofun nofun)

/-- An activation about to call the solver. -/
theorem ok_of_loopHead (hok : a.Ok F A q)
    (same : b.argument = a.argument ∧ b.isRejected = a.isRejected ∧
      b.extensionBuild = a.extensionBuild ∧ b.creator = a.creator)
    (hpoint : b.point = .loopHead) (henc : b.Encoded F A)
    (hfirst : b.isFirstCalculation = !b.isSolved) (htmp : b.isRejectedTmp = false) :
    b.Ok F A q where
  argument := same.1.trans hok.argument
  isRejected := same.2.1.trans hok.isRejected
  extension := by
    rw [same.2.2.1]
    exact hok.extension
  encoded := fun _ => henc
  tmp := fun _ => htmp
  unsolved := fun h => absurd (hpoint.symm.trans h) nofun
  loopHead := fun _ => hfirst
  answered := fun h => absurd (hpoint.symm.trans h) nofun
  sat := fun h => absurd (hpoint.symm.trans h) nofun
  unsat := fun h => absurd (hpoint.symm.trans h) nofun
  pollLoop := fun h => absurd (hpoint.symm.trans h) nofun
  handOver := by
    rintro (h | h)
    all_goals exact absurd (hpoint.symm.trans h) nofun

/-- What the solver has found, at `answered`. -/
theorem Ok.found (hok : a.Ok F A q) (hin : SearchInput F A q) (hpoint : a.point = .answered)
    (hsat : a.hasSolution = true) :
    ∃ v, a.solver.model = some v ∧ Sat.Satisfies v a.solver.cadical.clauses ∧
      getSetFromSolver a.solver a.reduct = a.reduct.vector.filter v ∧
      Found F A a.reduct a.extensionBuild (getSetFromSolver a.solver a.reduct) := by
  have henc := hok.encoded (Or.inr (Or.inr (Or.inl hpoint)))
  obtain ⟨v, hmodel, hv⟩ := hok.sat hpoint hsat
  obtain ⟨hdecode, hfound⟩ := found_of_satisfies hin henc.reduct hmodel (henc.sound v hv)
  exact ⟨v, hmodel, hv, hdecode, hfound⟩

/-- The reduct that is built again when a task has been created is the one at hand. -/
theorem Ok.reduct_eq (hok : a.Ok F A q) (hpoint : a.point = .answered)
    (hbuild : buildReduct F A a.extensionBuild = some R) : R = a.reduct := by
  have henc := hok.encoded (Or.inr (Or.inr (Or.inl hpoint)))
  exact Option.some.inj (hbuild.symm.trans henc.reduct.build)

/-- **No activation reaches an error exit.** -/
theorem Ok.not_faulty (hok : a.Ok F A q) (hin : SearchInput F A q) : ¬ a.Faulty F A := by
  intro hfault
  obtain ⟨R, hR⟩ := exists_isReduct hin.coherent hin.agrees a.extensionBuild
  cases hfault with
  | reduct point build =>
    rw [hR.build] at build
    exact absurd build (by simp)
  | emptyAgain point answer empty =>
    obtain ⟨v, -, -, -, hfound⟩ := hok.found hin point answer
    exact hfound.nonempty empty
  | priority point found empty =>
    exact extendExtension_ne_nil found empty

theorem Ok.effect_ne_fault (hok : a.Ok F A q) (hin : SearchInput F A q)
    (h : Advanced F A flag answer a b e) : e ≠ .fault := by
  rintro rfl
  cases h with
  | fault why same => exact hok.not_faulty hin why

/-- The solver at the SAT call. -/
theorem Encoded.nextSolver_eq (henc : a.Encoded F A) (hin : SearchInput F A q) :
    a.nextSolver.cadical.pending = [] ∧
      a.nextSolver.cadical.clauses = a.solver.cadical.clauses ++
        if a.isSolved = true then [complementClause (getSetFromSolver a.solver a.reduct)]
        else [] := by
  rw [nextSolver]
  split
  · rw [addComplementClause_eq hin.coherent (henc.reduct.range hin.range) henc.pending]
    exact ⟨henc.pending, rfl⟩
  · exact ⟨henc.pending, by simp⟩

theorem Encoded.nextSolver_sound (henc : a.Encoded F A) (hin : SearchInput F A q)
    {v : ℕ → Bool} (hv : Sat.Satisfies v a.nextSolver.cadical.clauses) :
    Sat.Satisfies v a.solver.cadical.clauses := by
  rw [(henc.nextSolver_eq hin).2, Sat.satisfies_append] at hv
  exact hv.1

/-- A new solver with the clauses of the encoding. -/
theorem clauses_encode (hin : SearchInput F A q) (hR : IsReduct F A E R) (n : ℕ) :
    (addClausesNonemptyAdmissibleSet (.new n) F R).cadical.pending = [] ∧
      (addClausesNonemptyAdmissibleSet (.new n) F R).cadical.clauses = encodingClauses F R := by
  rw [encode_eq hin.coherent (hR.range hin.range) rfl]
  exact ⟨rfl, rfl⟩

/-- The call of the solver: what the answer means. -/
theorem Ok.call (hok : a.Ok F A q) (hin : SearchInput F A q) (hpoint : a.point = .loopHead)
    (hans : a.nextSolver.SolverAnswers answer) : (a.called answer).Ok F A q where
  argument := hok.argument
  isRejected := hok.isRejected
  extension := hok.extension
  encoded := by
    intro _
    have henc := hok.encoded (Or.inr (Or.inl hpoint))
    obtain ⟨hpending, hclauses⟩ := henc.nextSolver_eq hin
    refine ⟨henc.reduct, hpending, fun v hv => henc.sound v (henc.nextSolver_sound hin hv),
      fun hfirst => ?_⟩
    -- before the first call nothing has been excluded
    have hunsolved : a.isSolved = false := by
      have hflags := hok.loopHead hpoint
      rw [show a.isFirstCalculation = true from hfirst] at hflags
      simpa using hflags.symm
    refine hclauses.trans ?_
    rw [hunsolved, if_neg Bool.false_ne_true, List.append_nil]
    exact henc.first hfirst
  tmp := fun _ => hok.tmp (Or.inl hpoint)
  unsolved := nofun
  loopHead := nofun
  answered := fun _ => rfl
  sat := by
    intro _ hsome
    obtain ⟨v, hv⟩ := Option.isSome_iff_exists.mp hsome
    subst hv
    exact ⟨v, rfl, hans⟩
  unsat := by
    intro _ hnone
    obtain rfl := Option.isSome_eq_false_iff.mp hnone |> Option.isNone_iff_eq_none.mp
    exact hans
  pollLoop := nofun
  handOver := fun h => absurd h (by decide : ¬ Point.answered.HandsOver)

/-- **The step lemma of an activation.** -/
theorem Ok.advance (hok : a.Ok F A q) (hin : SearchInput F A q)
    (hans : a.point = .loopHead → a.nextSolver.SolverAnswers answer)
    (h : Advanced F A flag answer a b e) : b.Ok F A q := by
  have hparam := h.parameters
  cases h with
  | cutOff _ _ _ _ point => exact ok_of_parameters hok hparam (Or.inr (Or.inl point))
  | entered => exact ok_of_parameters hok hparam (Or.inl rfl)
  | small => exact ok_of_parameters hok hparam (Or.inr (Or.inl rfl))
  | @encoded R point build size =>
    have hR := isReduct_of_build hin.coherent hin.agrees build
    obtain ⟨hpending, hclauses⟩ := clauses_encode hin hR R.vector.length
    exact
      { argument := hok.argument
        isRejected := hok.isRejected
        extension := hok.extension
        encoded := fun _ => ⟨hR, hpending, fun v hv => hclauses ▸ hv, fun _ => hclauses⟩
        tmp := by rintro (h | h) <;> cases h
        unsolved := fun _ => ⟨rfl, rfl⟩
        loopHead := nofun
        answered := nofun
        sat := nofun
        unsat := nofun
        pollLoop := nofun
        handOver := fun h => absurd h (by decide : ¬ Point.pollEncoded.HandsOver) }
  | armed point unset =>
    have henc := hok.encoded (Or.inl point)
    obtain ⟨hfirst, hsolved⟩ := hok.unsolved point
    refine ok_of_loopHead hok hparam rfl ⟨henc.reduct, henc.pending, henc.sound, henc.first⟩ ?_ rfl
    simp [hfirst, hsolved]
  | call point => exact hok.call hin point (hans point)
  | exhausted => exact ok_of_parameters hok hparam (Or.inr (Or.inl rfl))
  | onlyEmpty => exact ok_of_parameters hok hparam (Or.inr (Or.inl rfl))
  | reject point sat found rejects =>
    obtain ⟨v, -, -, -, hfound⟩ := hok.found hin point sat
    rw [hok.argument, checkRejection_iff hin.coherent] at rejects
    exact
      { argument := hok.argument
        isRejected := hok.isRejected
        extension := hok.extension
        encoded := fun h => absurd h (by decide : ¬ Point.handOver.Inside)
        tmp := by rintro (h | h) <;> cases h
        unsolved := nofun
        loopHead := nofun
        answered := nofun
        sat := nofun
        unsat := nofun
        pollLoop := nofun
        handOver := fun _ => ⟨hfound.admissible_extend hok.extension.admissible, by
          rw [listArgs_extendExtension, Dung.attacks_union]
          exact Or.inr rejects⟩ }
  | abort point sat found passes contains =>
    have henc := hok.encoded (Or.inr (Or.inr (Or.inl point)))
    have htmp := hok.tmp (Or.inr point)
    refine ok_of_loopHead hok hparam ?_ ⟨henc.reduct, henc.pending, henc.sound, nofun⟩ ?_ htmp
    · simp [htmp]
    · simp [hok.answered point]
  | @spawn prio R point sat found passes omits priority build =>
    have henc := hok.encoded (Or.inr (Or.inr (Or.inl point)))
    obtain rfl := hok.reduct_eq point build
    exact
      { argument := hok.argument
        isRejected := hok.isRejected
        extension := hok.extension
        encoded := fun _ => ⟨henc.reduct, henc.pending, henc.sound, nofun⟩
        tmp := by rintro (h | h) <;> cases h
        unsolved := nofun
        loopHead := nofun
        answered := nofun
        sat := nofun
        unsat := nofun
        pollLoop := fun _ => ⟨rfl, hok.answered point, sat⟩
        handOver := fun h => absurd h (by decide : ¬ Point.pollLoop.HandsOver) }
  | again point unset =>
    have henc := hok.encoded (Or.inr (Or.inr (Or.inr point)))
    obtain ⟨hfirst, hsolved, hsat⟩ := hok.pollLoop point
    refine ok_of_loopHead hok hparam ?_ ⟨henc.reduct, henc.pending, henc.sound, henc.first⟩ ?_ rfl
    · simp [hsat]
    · simp [hfirst, hsolved]
  | handOver point =>
    exact
      { argument := hok.argument
        isRejected := hok.isRejected
        extension := hok.extension
        encoded := fun h => absurd h (by decide : ¬ Point.assigning.Inside)
        tmp := by rintro (h | h) <;> cases h
        unsolved := nofun
        loopHead := nofun
        answered := nofun
        sat := nofun
        unsat := nofun
        pollLoop := nofun
        handOver := fun _ => hok.handOver (Or.inl point) }
  | assigned => exact ok_of_parameters hok hparam (Or.inr (Or.inl rfl))
  | ret => exact ok_of_parameters hok hparam (Or.inr (Or.inr rfl))
  | fault why => exact absurd why (hok.not_faulty hin)

/-- What a created task continues with. -/
theorem Ok.spawned (hok : a.Ok F A q) (hin : SearchInput F A q) {L : List ℕ} {prio : ℕ}
    (h : Advanced F A flag answer a b (.spawn L prio)) :
    ExtensionOk F A q L ∧ ∃ S, L = extendExtension a.extensionBuild S ∧
      Found F A a.reduct a.extensionBuild S := by
  cases h with
  | spawn point sat found passes omits priority build =>
    obtain ⟨v, -, -, -, hfound⟩ := hok.found hin point sat
    rw [hok.argument] at passes omits
    exact ⟨hfound.extend hin.coherent hok.extension passes omits, _, rfl, hfound⟩

end Activation

/-! ## The invariant of the region -/

/-- **What holds of the whole region.** -/
structure SearchInv (F : AF) (A : VectorBitSet) (q : ℕ) (s : SearchState) : Prop where
  noFault : s.fault = false
  activations : ∀ (i : ℕ) (a : Activation), s.activations[i]? = some a → a.Ok F A q
  tasks : ∀ t ∈ s.tasks, ExtensionOk F A q t.newExtensionBuild
  created : ∀ t ∈ s.tasks, t.creator < s.activations.length

variable {s s' : SearchState} {ℓ : Action} {ls : List Action} {proof : List ℕ}

theorem searchInv_init : SearchInv F A q (.init q proof) where
  noFault := rfl
  activations := by
    intro i a ha
    obtain ⟨-, rfl⟩ := SearchState.eq_enter_of_init ha
    exact Activation.ok_enter extensionOk_nil
  tasks := fun t ht => absurd ht List.not_mem_nil
  created := fun t ht => absurd ht List.not_mem_nil

/-- **The step lemma of the region.** -/
theorem SearchInv.step (hin : SearchInput F A q) (hinv : SearchInv F A q s)
    (h : LawfulStep F A s ℓ s') : SearchInv F A q s' := by
  obtain ⟨hstep, hsees⟩ := h
  cases hstep with
  | @act i a b e answer running active answers advance =>
    have hadv := Activation.advanced_of_advance advance
    have hok := hinv.activations i a active
    refine
      { noFault := ?_
        activations := fun j c hc => ?_
        tasks := fun t ht => ?_
        created := fun t ht => ?_ }
    · show (s.apply i b e).fault = false
      rw [SearchState.fault_apply_of_ne (hok.effect_ne_fault hin hadv)]
      exact running
    · rcases getElem?_set_of_eq active hc with ⟨-, rfl⟩ | ⟨-, hold⟩
      · exact hok.advance hin answers hadv
      · exact hinv.activations j c hold
    · rcases SearchState.of_mem_tasks_apply ht with ht | ⟨L, prio, rfl, rfl⟩
      · exact hinv.tasks t ht
      · exact (hok.spawned hin hadv).1
    · rw [SearchState.activations_apply, List.length_set]
      rcases SearchState.of_mem_tasks_apply ht with ht | ⟨L, prio, rfl, rfl⟩
      · exact hinv.created t ht
      · exact (List.getElem?_eq_some_iff.mp active).1
  | @start k x p t creator running waiting created captured =>
    have hcreator := hinv.activations _ _ created
    obtain ⟨rfl, rfl⟩ := hsees t creator waiting created
    refine
      { noFault := running
        activations := fun j c hc => ?_
        tasks := fun u hu => ?_
        created := fun u hu => ?_ }
    · show c.Ok F A q
      rcases SearchState.of_getElem?_startTask hc with hold | ⟨-, rfl⟩
      · exact hinv.activations j c hold
      · rw [hcreator.argument, hcreator.isRejected]
        exact Activation.ok_enter (hinv.tasks t (List.mem_of_getElem? waiting))
    · exact hinv.tasks u (List.mem_of_mem_eraseIdx hu)
    · rw [SearchState.activations_startTask, List.length_append]
      exact Nat.lt_add_right _ (hinv.created u (List.mem_of_mem_eraseIdx hu))

/-- **The invariant of every lawful run.** -/
theorem SearchInv.run (hin : SearchInput F A q)
    (h : Transition.Run (LawfulStep F A) (.init q proof) ls s) : SearchInv F A q s :=
  h.invariant (fun _ _ _ hinv hstep => hinv.step hin hstep) searchInv_init

/-- What a step preserves in a state with the invariant holds in every state of a lawful run. -/
theorem SearchInv.induction {P : SearchState → Prop} (hin : SearchInput F A q)
    (hstep : ∀ s ℓ s', SearchInv F A q s → P s → LawfulStep F A s ℓ s' → P s')
    (hinit : P (.init q proof)) (h : Transition.Run (LawfulStep F A) (.init q proof) ls s) : P s :=
  h.invariant_under (fun _ _ _ hinv hstep => hinv.step hin hstep) hstep searchInv_init hinit

end AFAnalyzer
