import AFAnalyzer.Search.InitialSets
import AFAnalyzer.Search.Scenario
import AFAnalyzer.Search.CheckRejection

/-!
# What CaDiCaL holds during the search

The solver of an activation lives from the encoding of the reduct to the return.  In between
only `add_complement_clause` adds to it, once for each set that has been found.  So at every
moment of every run in which each task sees the argument and the flag of its creator, its clauses
are the encoding followed by the complement clauses of the sets found before the last SAT call
(`SolverLog`), whatever the other activations do.  Which sets these are is read off the run
(`Decodes`).

`solve_solverLog` draws the consequences for the interface: no clause is left unfinished, the
variables that occur are exactly those of the reduct, and every literal is one that an `int`
can hold.
-/

namespace AFAnalyzer

open SatSolverCadical

/-- The clauses of the solver are the encoding of the reduct and one complement clause for each
of the given sets.  These are nonempty admissible sets of the reduct, none of which includes
an earlier one. -/
structure SolverLog (F : AF) (a : Activation) (found : List (List ℕ)) : Prop where
  clauses : a.solver.cadical.clauses = encodingClauses F a.reduct ++ found.map complementClause
  nodup : ∀ S ∈ found, S.Nodup
  admissible : ∀ S ∈ found, S ≠ [] ∧ Dung.Admissible F.att a.reduct.args (listArgs S)
  apart : found.Pairwise fun S T => ¬ listArgs S ⊆ listArgs T

variable {F : AF} {A : VectorBitSet} {q : ℕ} {found : List (List ℕ)} {proof : List ℕ}
  {ls : List Action} {ℓ : Action} {s s' : SearchState}

/-- An invariant of single activations: it holds at the entry, and a step of the activation
preserves it. -/
structure ActivationInvariant (F : AF) (A : VectorBitSet) (q : ℕ) (Q : Activation → Prop) :
    Prop where
  enter : ∀ creator x p L, Q (.enter creator x p L)
  advance : ∀ a b e flag answer, a.Ok F A q → Q a →
    (a.point = .loopHead → a.nextSolver.SolverAnswers answer) →
      Activation.Advanced F A flag answer a b e → Q b

namespace ActivationInvariant

variable {Q : Activation → Prop}

/-- A step of the region preserves it for all activations. -/
theorem step (hQ : ActivationInvariant F A q Q) (hinv : SearchInv F A q s)
    (hall : ∀ (i : ℕ) (a : Activation), s.activations[i]? = some a → Q a)
    (h : LawfulStep F A s ℓ s') (i : ℕ) (a : Activation) (ha : s'.activations[i]? = some a) :
    Q a := by
  obtain ⟨hstep, -⟩ := h
  cases hstep with
  | @act j b c e answer running active answers advance =>
    rcases getElem?_set_of_eq active ha with ⟨-, rfl⟩ | ⟨-, hold⟩
    · exact hQ.advance b a e _ answer (hinv.activations j b active) (hall j b active) answers
        (Activation.advanced_of_advance advance)
    · exact hall i a hold
  | start =>
    rcases SearchState.of_getElem?_startTask ha with hold | ⟨-, rfl⟩
    · exact hall i a hold
    · exact hQ.enter _ _ _ _

theorem init (hQ : ActivationInvariant F A q Q) (i : ℕ) (a : Activation)
    (ha : (SearchState.init q proof).activations[i]? = some a) : Q a := by
  obtain ⟨-, rfl⟩ := SearchState.eq_enter_of_init ha
  exact hQ.enter _ _ _ _

/-- **The rule**: it holds of every activation in every state of every run. -/
theorem run (hQ : ActivationInvariant F A q Q) (hin : SearchInput F A q)
    (h : Transition.Run (LawfulStep F A) (.init q proof) ls s) :
    ∀ (i : ℕ) (a : Activation), s.activations[i]? = some a → Q a :=
  SearchInv.induction
    (P := fun s => ∀ (i : ℕ) (a : Activation), s.activations[i]? = some a → Q a) hin
    (fun _ _ _ hinv hall hstep => hQ.step hinv hall hstep) hQ.init h

end ActivationInvariant

namespace Activation

variable {a b : Activation} {e : Effect} {flag : Bool} {answer : Option (ℕ → Bool)}

/-- While the solver exists, its clauses are accounted for. -/
def Logged (F : AF) (a : Activation) : Prop := a.point.Inside → ∃ found, SolverLog F a found

theorem logged_of_outside (h : ¬ a.point.Inside) : a.Logged F := fun hinside => absurd hinside h

theorem logged_of_point {p : Point} (hp : a.point = p) (h : ¬ p.Inside) : a.Logged F :=
  logged_of_outside (hp ▸ h)

/-- A step that touches neither the solver nor the reduct keeps the log. -/
theorem Logged.of_same (h : a.Logged F) (ha : a.point.Inside)
    (hsolver : b.solver = a.solver) (hreduct : b.reduct = a.reduct) : b.Logged F := by
  obtain ⟨found, hlog⟩ := h ha
  refine fun _ => ⟨found, ?_, hlog.nodup, ?_, hlog.apart⟩
  · rw [hsolver, hreduct]
    exact hlog.clauses
  · rw [hreduct]
    exact hlog.admissible

/-- The next SAT call is made on the encoding and all sets found so far. -/
theorem InLoop.nextSolver_log (h : a.InLoop F) (hok : a.Ok F A q) (hin : SearchInput F A q)
    (hpoint : a.point = .pollEncoded ∨ a.point = .loopHead ∨ a.point = .pollLoop) :
    ∃ st : LoopState, LoopInv F a.reduct st ∧ st.atCall a.reduct = a.nextSolver := by
  have henc := hok.encoded (by tauto)
  obtain ⟨vs, st, hrun, hsolver, hsolved⟩ := h.looping hpoint
  refine ⟨st, LoopInv.run hin.coherent henc.reduct.agrees (henc.reduct.range hin.range) hrun, ?_⟩
  rw [LoopState.atCall, nextSolver, hsolver, hsolved]

/-- **Every step of an activation keeps the account.** -/
theorem Logged.advance (hlog : a.Logged F) (hloop : a.InLoop F) (hok : a.Ok F A q)
    (hin : SearchInput F A q) (hadv : Advanced F A flag answer a b e) : b.Logged F := by
  cases hadv with
  | cutOff _ _ _ _ point => exact logged_of_point point (by decide)
  | entered => exact logged_of_point rfl (by decide : ¬ Point.encode.Inside)
  | small => exact logged_of_point rfl (by decide : ¬ Point.leaving.Inside)
  | @encoded R point build size =>
    have hR := isReduct_of_build hin.coherent hin.agrees build
    refine fun _ => ⟨[], ?_, fun S hS => absurd hS List.not_mem_nil,
      fun S hS => absurd hS List.not_mem_nil, List.Pairwise.nil⟩
    rw [List.map_nil, List.append_nil]
    exact (clauses_encode hin hR R.vector.length).2
  | armed point => exact hlog.of_same (Or.inl point) rfl rfl
  | call point =>
    obtain ⟨st, hinv, hnext⟩ := hloop.nextSolver_log hok hin (Or.inr (Or.inl point))
    refine fun _ => ⟨st.initialSets, ?_, hinv.nodup, hinv.found, hinv.apart⟩
    show a.nextSolver.cadical.clauses = _
    rw [← hnext]
    exact hinv.clauses
  | exhausted => exact logged_of_point rfl (by decide : ¬ Point.leaving.Inside)
  | onlyEmpty => exact logged_of_point rfl (by decide : ¬ Point.leaving.Inside)
  | reject => exact logged_of_point rfl (by decide : ¬ Point.handOver.Inside)
  | abort point => exact hlog.of_same (Or.inr (Or.inr (Or.inl point))) rfl rfl
  | @spawn prio R point sat found passes omits priority build =>
    obtain rfl := hok.reduct_eq point build
    exact hlog.of_same (Or.inr (Or.inr (Or.inl point))) rfl rfl
  | again point => exact hlog.of_same (Or.inr (Or.inr (Or.inr point))) rfl rfl
  | handOver => exact logged_of_point rfl (by decide : ¬ Point.assigning.Inside)
  | assigned => exact logged_of_point rfl (by decide : ¬ Point.leaving.Inside)
  | ret => exact logged_of_point rfl (by decide : ¬ Point.returned.Inside)
  | fault why => exact absurd why (hok.not_faulty hin)

end Activation

/-- The account is kept by every activation. -/
theorem activationInvariant_logged (hin : SearchInput F A q) :
    ActivationInvariant F A q fun a => a.InLoop F ∧ a.Logged F where
  enter := fun _ _ _ _ => ⟨Activation.inLoop_of_point rfl (by decide : ¬ Point.entry.Inside),
    Activation.logged_of_point rfl (by decide : ¬ Point.entry.Inside)⟩
  advance := fun _ _ _ _ _ hok hQ hans hadv =>
    ⟨hQ.1.advance hok hin hans hadv, hQ.2.advance hQ.1 hok hin hadv⟩

/-! ## The sets that a run finds -/

/-- The sets that activation `i` decodes in a run, one for each of its SAT calls.  After an
unsatisfiable call, which is the last, there is nothing to decode: it counts as `[]`. -/
inductive Decodes (F : AF) (A : VectorBitSet) (i : ℕ) (s : SearchState) :
    List Action → SearchState → List (List ℕ) → Prop
  | nil : Decodes F A i s [] s []
  | call {ls : List Action} {t u : SearchState} {a : Activation} {found : List (List ℕ)}
      (before : Decodes F A i s ls t found) (step : LawfulStep F A t (.act i .callSolver) u)
      (active : u.activations[i]? = some a) :
      Decodes F A i s (ls ++ [.act i .callSolver]) u
        (found ++ [getSetFromSolver a.solver a.reduct])
  | other {ls : List Action} {ℓ : Action} {t u : SearchState} {found : List (List ℕ)}
      (before : Decodes F A i s ls t found) (step : LawfulStep F A t ℓ u)
      (ne : ℓ ≠ .act i .callSolver) : Decodes F A i s (ls ++ [ℓ]) u found

section Decodes

variable {i : ℕ}

theorem Decodes.run (h : Decodes F A i s ls s' found) :
    Transition.Run (LawfulStep F A) s ls s' := by
  induction h with
  | nil => exact .nil s
  | call _ step _ ih => exact ih.snoc step
  | other _ step _ ih => exact ih.snoc step

/-- One set for each call. -/
theorem Decodes.length_eq (h : Decodes F A i s ls s' found) :
    found.length = ls.count (.act i .callSolver) := by
  induction h with
  | nil => rfl
  | call _ _ _ ih =>
    rw [List.length_append, List.count_append, ih, List.count_singleton_self]
    rfl
  | @other _ ℓ _ _ _ _ _ ne ih =>
    have hcount : [ℓ].count (Action.act i .callSolver) = 0 :=
      List.count_eq_zero.mpr fun hmem => ne (List.mem_singleton.mp hmem).symm
    rw [List.count_append, ih, hcount, Nat.add_zero]

/-- Every run decodes something. -/
theorem exists_decodes (h : Transition.Run (LawfulStep F A) s ls s') (i : ℕ) :
    ∃ found, Decodes F A i s ls s' found := by
  induction ls using List.reverseRecOn generalizing s' with
  | nil =>
    cases h with
    | nil => exact ⟨[], .nil⟩
  | append_singleton ls ℓ ih =>
    obtain ⟨t, hbefore, hlast⟩ := h.split
    obtain ⟨found, hfound⟩ := ih hbefore
    cases hlast with
    | cons step rest =>
      cases rest with
      | nil =>
        by_cases hℓ : ℓ = .act i .callSolver
        · subst hℓ
          obtain ⟨a, ha⟩ : ∃ a, s'.activations[i]? = some a := by
            cases step.1 with
            | act running active =>
              exact ⟨_, List.getElem?_set_self (List.getElem?_eq_some_iff.mp active).1⟩
          exact ⟨_, hfound.call step ha⟩
        · exact ⟨found, hfound.other step hℓ⟩

end Decodes

namespace Activation

variable {a b : Activation} {e : Effect} {flag : Bool} {answer : Option (ℕ → Bool)}

/-- What the solver of an activation holds after the calls that have decoded `found`. -/
structure Tracks (F : AF) (a : Activation) (found : List (List ℕ)) : Prop where
  fresh : a.point = .entry ∨ a.point = .encode ∨ a.point = .pollEncoded → found = []
  clauses : a.point.Inside → a.solver.cadical.clauses =
    encodingClauses F a.reduct ++ found.dropLast.map complementClause
  last : a.point.Inside → found.getLast? =
    if a.isSolved = true then some (getSetFromSolver a.solver a.reduct) else none

theorem tracks_enter {creator : Option ℕ} {x p : ℕ} {L : List ℕ} :
    (Activation.enter creator x p L).Tracks F [] where
  fresh := fun _ => rfl
  clauses := fun h => absurd h (by decide : ¬ Point.entry.Inside)
  last := fun h => absurd h (by decide : ¬ Point.entry.Inside)

/-- Nothing is asked of the points at which there is no solver. -/
theorem tracks_of_point {p : Point} (hp : b.point = p)
    (h : ¬ (p.Inside ∨ p = .entry ∨ p = .encode)) : b.Tracks F found := by
  subst hp
  refine ⟨fun hfresh => ?_, fun hinside => absurd (Or.inl hinside) h,
    fun hinside => absurd (Or.inl hinside) h⟩
  rcases hfresh with hp | hp | hp
  · exact absurd (Or.inr (Or.inl hp)) h
  · exact absurd (Or.inr (Or.inr hp)) h
  · exact absurd (Or.inl (Or.inl hp)) h

/-- A step that touches neither the solver nor the reduct. -/
theorem Tracks.of_same (h : a.Tracks F found) (ha : a.point.Inside) (hb : b.point.Inside)
    (hpoint : b.point ≠ .pollEncoded) (hsolver : b.solver = a.solver)
    (hreduct : b.reduct = a.reduct) (hsolved : b.isSolved = a.isSolved) : b.Tracks F found where
  fresh := by
    rintro (hp | hp | hp)
    · exact absurd hb (hp ▸ (by decide : ¬ Point.entry.Inside))
    · exact absurd hb (hp ▸ (by decide : ¬ Point.encode.Inside))
    · exact absurd hp hpoint
  clauses := fun _ => by
    rw [hsolver, hreduct]
    exact h.clauses ha
  last := fun _ => by
    rw [hsolver, hreduct, hsolved]
    exact h.last ha

/-- **A call adds the complement clause of the set decoded last.** -/
theorem Tracks.call (h : a.Tracks F found) (hok : a.Ok F A q) (hin : SearchInput F A q)
    (hpoint : a.point = .loopHead) : (a.called answer).Tracks F
      (found ++ [getSetFromSolver (a.called answer).solver (a.called answer).reduct]) where
  fresh := fun hfresh => by rcases hfresh with hp | hp | hp <;> exact absurd hp nofun
  clauses := by
    intro _
    have hinside : a.point.Inside := Or.inr (Or.inl hpoint)
    have hnext := ((hok.encoded hinside).nextSolver_eq hin).2
    have hlast := h.last hinside
    show a.nextSolver.cadical.clauses = encodingClauses F a.reduct ++ _
    rw [hnext, h.clauses hinside, List.append_assoc, List.dropLast_concat]
    by_cases hsolved : a.isSolved = true
    · rw [if_pos hsolved] at hlast ⊢
      obtain ⟨before, hbefore⟩ := List.getLast?_eq_some_iff.mp hlast
      rw [hbefore, List.dropLast_concat, List.map_append, List.map_singleton]
    · rw [if_neg hsolved] at hlast ⊢
      rw [List.getLast?_eq_none_iff.mp hlast]
      rfl
  last := fun _ => by
    rw [List.getLast?_concat]
    rfl

/-- No other step changes what the solver holds. -/
theorem Tracks.advance (h : a.Tracks F found) (hok : a.Ok F A q) (hin : SearchInput F A q)
    (hadv : Advanced F A flag answer a b e) (he : e ≠ .callSolver) : b.Tracks F found := by
  cases hadv with
  | cutOff _ _ _ _ point => exact tracks_of_point point (by decide)
  | entered point =>
    rw [h.fresh (Or.inl point)]
    exact ⟨fun _ => rfl, fun hinside => absurd hinside (by decide : ¬ Point.encode.Inside),
      fun hinside => absurd hinside (by decide : ¬ Point.encode.Inside)⟩
  | small => exact tracks_of_point (p := .leaving) rfl (by decide)
  | @encoded R point build size =>
    rw [h.fresh (Or.inr (Or.inl point))]
    refine ⟨fun _ => rfl, fun _ => ?_, fun _ => rfl⟩
    rw [List.dropLast_nil, List.map_nil, List.append_nil]
    exact (clauses_encode hin (isReduct_of_build hin.coherent hin.agrees build)
      R.vector.length).2
  | armed point => exact h.of_same (Or.inl point) (Or.inr (Or.inl rfl)) nofun rfl rfl rfl
  | call => exact absurd rfl he
  | exhausted => exact tracks_of_point (p := .leaving) rfl (by decide)
  | onlyEmpty => exact tracks_of_point (p := .leaving) rfl (by decide)
  | reject => exact tracks_of_point (p := .handOver) rfl (by decide)
  | abort point =>
    have htmp := hok.tmp (Or.inr point)
    simp only [htmp, Bool.false_eq_true, if_false]
    exact h.of_same (Or.inr (Or.inr (Or.inl point))) (Or.inr (Or.inl rfl)) nofun rfl rfl rfl
  | @spawn prio R point sat found passes omits priority build =>
    obtain rfl := hok.reduct_eq point build
    exact h.of_same (Or.inr (Or.inr (Or.inl point))) (Or.inr (Or.inr (Or.inr rfl))) nofun rfl rfl
      rfl
  | again point =>
    obtain ⟨-, -, hsat⟩ := hok.pollLoop point
    simp only [hsat, if_true]
    exact h.of_same (Or.inr (Or.inr (Or.inr point))) (Or.inr (Or.inl rfl)) nofun rfl rfl rfl
  | handOver => exact tracks_of_point (p := .assigning) rfl (by decide)
  | assigned => exact tracks_of_point (p := .leaving) rfl (by decide)
  | ret => exact tracks_of_point (p := .returned) rfl (by decide)
  | fault why => exact absurd why (hok.not_faulty hin)

end Activation

/-- **What a run has decoded is what the solver has been told.** -/
theorem Decodes.tracks {i : ℕ} (hin : SearchInput F A q)
    (h : Decodes F A i (.init q proof) ls s found) :
    (s.activations[i]? = none → found = []) ∧
      ∀ a, s.activations[i]? = some a → a.Tracks F found := by
  induction h with
  | nil =>
    refine ⟨fun _ => rfl, fun a ha => ?_⟩
    obtain ⟨-, rfl⟩ := SearchState.eq_enter_of_init ha
    exact Activation.tracks_enter
  | @call ls t u a found before step active ih =>
    refine ⟨fun hnone => absurd (hnone.symm.trans active) nofun, fun c hc => ?_⟩
    obtain rfl := Option.some.inj (active.symm.trans hc)
    cases step.1 with
    | @act _ b _ _ answer running old answers advance =>
      have hok := (SearchInv.run hin before.run).activations i b old
      cases Activation.advanced_of_advance advance with
      | call point =>
        have hself : (t.apply i (b.called answer) .callSolver).activations[i]? =
            some (b.called answer) :=
          List.getElem?_set_self (List.getElem?_eq_some_iff.mp old).1
        obtain rfl := Option.some.inj (hself.symm.trans active)
        exact (ih.2 b old).call hok hin point
  | @other ls ℓ t u found before step ne ih =>
    have hinv := SearchInv.run hin before.run
    cases step.1 with
    | @act j b c e answer running old answers advance =>
      refine ⟨fun hnone => ih.1 ?_, fun a ha => ?_⟩
      · rw [List.getElem?_eq_none_iff] at hnone ⊢
        rwa [SearchState.activations_apply, List.length_set] at hnone
      · rcases getElem?_set_of_eq old ha with ⟨rfl, rfl⟩ | ⟨-, hold⟩
        · exact (ih.2 b old).advance (hinv.activations _ b old) hin
            (Activation.advanced_of_advance advance) fun he => ne (he ▸ rfl)
        · exact ih.2 a hold
    | start running waiting created captured =>
      refine ⟨fun hnone => ih.1 ?_, fun a ha => ?_⟩
      · rw [List.getElem?_eq_none_iff] at hnone ⊢
        rw [SearchState.activations_startTask, List.length_append] at hnone
        omega
      · rcases SearchState.of_getElem?_startTask ha with hold | ⟨hi, rfl⟩
        · exact ih.2 a hold
        · rw [ih.1 (List.getElem?_eq_none (le_of_eq hi.symm))]
          exact Activation.tracks_enter

/-! ## The interface -/

/-- The complement clauses mention members of the sets only. -/
theorem SolverLog.clauseVars_eq {a : Activation} (h : SolverLog F a found) (hF : F.Coherent)
    (hR : VectorBitSet.Matches F.numArgs a.reduct) :
    Sat.clauseVars a.solver.cadical.clauses = encodingVars F.numArgs a.reduct := by
  have hvars := clauseVars_encodingClauses hF hR
  rw [h.clauses]
  ext x
  constructor
  · rintro ⟨c, hc, ℓ, hℓ, rfl⟩
    rcases List.mem_append.mp hc with hc | hc
    · rw [← hvars]
      exact ⟨c, hc, ℓ, hℓ, rfl⟩
    · obtain ⟨S, hS, rfl⟩ := List.mem_map.mp hc
      obtain ⟨b, hb, rfl⟩ := List.mem_map.mp hℓ
      exact ⟨b, (h.admissible S hS).2.subset hb, Or.inl (by omega)⟩
  · intro hx
    rw [← hvars] at hx
    obtain ⟨c, hc, ℓ, hℓ, rfl⟩ := hx
    exact ⟨c, List.mem_append_left _ hc, ℓ, hℓ, rfl⟩

/-- The variables of a reduct fit into an `int`. -/
theorem inRange_of_encodingVars (hF : F.Coherent) {R : VectorBitSet}
    (hR : ∀ a ∈ R.vector, a ∈ F.args) {ℓ : ℤ} (h : ℓ.natAbs ∈ encodingVars F.numArgs R) :
    SatSolverCadical.InRange ℓ := by
  obtain ⟨a, ha, habs⟩ := h
  have hargs := hR a ha
  have h1 := hargs.1
  have h2 := hargs.2
  have h3 := hF.bound
  exact ⟨by omega, by omega, by omega⟩

theorem complementClause_injective : Function.Injective complementClause :=
  List.map_injective_iff.mpr fun _ _ h => by exact_mod_cast neg_injective h

/-- What the solver of an activation has received. -/
structure SolverFacts (F : AF) (a : Activation) (found : List (List ℕ)) : Prop where
  log : SolverLog F a found
  pending : a.solver.cadical.pending = []
  vars : Sat.clauseVars a.solver.cadical.clauses = encodingVars F.numArgs a.reduct
  inRange : ∀ c ∈ a.solver.cadical.clauses, ∀ ℓ ∈ c, SatSolverCadical.InRange ℓ

/-- **What CaDiCaL has received, at every moment of the search of `solve`.**  Take any run in which
each task sees the argument and the flag of its creator, and the sets that activation `i` decodes in
it, one for each call.  While the activation has a solver, the clauses are the encoding of its
reduct and one complement clause for each set but that of the last call, no clause is unfinished,
exactly the variables of the reduct occur, and every literal is nonzero and fits into an `int`. -/
theorem solve_solverLog (W : WellFormed) {q : ℕ} (h1 : 1 ≤ q) (hn : q ≤ W.n) {F' : AF}
    {out : VectorBitSet} (hproc : process W.af q ⟨[], []⟩ = some (F', .unknown, out))
    {proof : List ℕ} {ls : List Action} {s : SearchState}
    (hrun : Transition.Run (LawfulStep F' out) (.init q proof) ls s) (i : ℕ) :
    (∃ found, Decodes F' out i (.init q proof) ls s found) ∧
    ∀ found, Decodes F' out i (.init q proof) ls s found →
      found.length = ls.count (.act i .callSolver) ∧
      ∀ a, s.activations[i]? = some a → a.point.Inside → SolverFacts F' a found.dropLast := by
  have hq : q ∈ W.af.args := WellFormed.mem_args h1 hn
  have hin := (processResult_of_eq W.coherent hq hproc).searchInput W.coherent hq
  refine ⟨exists_decodes hrun i, fun found hfound => ⟨hfound.length_eq, fun a ha hinside => ?_⟩⟩
  have henc := ((SearchInv.run hin hrun).activations i a ha).encoded hinside
  have hclauses := ((hfound.tracks hin).2 a ha).clauses hinside
  -- the account of the loop is one of these sets
  obtain ⟨accounted, hlog⟩ := ((activationInvariant_logged hin).run hin hrun i a ha).2 hinside
  rw [hlog.clauses, List.append_cancel_left_eq] at hclauses
  obtain rfl := List.map_injective_iff.mpr complementClause_injective hclauses
  have hvars := hlog.clauseVars_eq hin.coherent henc.reduct.agrees
  refine ⟨hlog, henc.pending, hvars, fun c hc ℓ hℓ => ?_⟩
  refine inRange_of_encodingVars hin.coherent (henc.reduct.range hin.range) ?_
  rw [← hvars]
  exact ⟨c, hc, ℓ, hℓ, rfl⟩

theorem solve_solverLog_choice :
    ∃ ls s a found, Transition.Run (LawfulStep choiceSearched choiceActive.toVectorBitSet)
      (.init 1 []) ls s ∧ s.activations[0]? = some a ∧ a.point = .answered ∧
        Decodes choiceSearched choiceActive.toVectorBitSet 0 (.init 1 []) ls s found ∧
        found.dropLast ≠ [] ∧ SolverFacts choiceSearched a found.dropLast := by
  obtain ⟨hP, hquery, hatt⟩ := choice_preferred_omitting
  have hT := choice_preferred_containing.admissible
  have hsub : ¬ Dung.members [2] ⊆ Dung.members [1, 4] := fun hsub =>
    absurd (show (2 : ℕ) ∈ [1, 4] from hsub (List.mem_singleton_self 2)) (by decide)
  obtain ⟨R, b, t, ls, s, -, -, hb, -, -, hrun, hcount, hacts, -, -, -⟩ :=
    exists_secondAnswer searchInput_choice hP.admissible ⟨2, List.mem_singleton_self 2⟩ hquery hatt
      hT ⟨1, List.mem_cons_self⟩ hsub []
  have ha : s.activations[0]? = some b := congrArg (·[0]?) hacts
  obtain ⟨⟨found, hfound⟩, hfacts⟩ :=
    solve_solverLog choiceFramework (by decide) (by decide) process_choice hrun 0
  obtain ⟨hlength, hsolver⟩ := hfacts found hfound
  refine ⟨ls, s, b, found, hrun, ha, hb.point, hfound, fun hnil => ?_,
    hsolver b ha (Or.inr (Or.inr (Or.inl hb.point)))⟩
  have hdrop : found.dropLast.length = found.length - 1 := List.length_dropLast
  rw [hnil, hlength, hcount] at hdrop
  exact absurd hdrop (by decide)

end AFAnalyzer
