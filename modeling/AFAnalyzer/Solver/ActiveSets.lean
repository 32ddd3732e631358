import AFAnalyzer.Logic.GroundedWorklist
import AFAnalyzer.Search.Invariant
import AFAnalyzer.Search.CheckRejection

/-!
# The sets of active arguments in a call of `solve`

A set of active arguments is held twice, as a vector and as a bitset, and nothing in the
class ties the two together.  The encoding walks along the vector and filters the attackers
by the bitset, and `copy` reads the vector only up to the length of the bitset, so all of
them rely on the producers.  There are four:

* `calculate_cone_influence` returns the cone;
* `reduce_by_grounded` starts with a copy of it and replaces it by its reduct in every
  round; the last one is handed to the search;
* `get_reduct_set` goes through one reduct for each argument of its list;
* an activation of the search builds its reduct when it is entered, and again after every
  task it creates, by `get_reduct_set` or, for the empty extension, by `copy`.

`OccursInSolve` lists the values that they produce during one call, and
`OccursInSolve.agrees` is the invariant of all of them.  It needs no assumption about the
values that a task captures: whatever extension an activation holds, its reduct is built from
`active_args`.  An object that is default-constructed or has been cleared holds no set; the
code assigns to it before it reads it again.
-/

namespace AFAnalyzer

/-- `PreProc_DS_PR::process` has not returned early and has computed the cone. -/
structure ConeComputed (F : AF) (query : ℕ) (F' : AF) (active : VectorBitSet) : Prop where
  notSelf : ¬ (F.victimsAt query).bit query = true
  attacked : ¬ (F.attackersAt query).vector.isEmpty = true
  cone : calculateConeInfluence F query = some (F', active)

/-- Preprocessing has left `out` undecided, and the search on it can get to `s`. -/
structure SearchReaches (F : AF) (query : ℕ) (proofExtension : List ℕ) (F' : AF)
    (out : VectorBitSet) (s : SearchState) : Prop where
  undecided : process F query ⟨[], []⟩ = some (F', .unknown, out)
  run : ∃ ls, Transition.Run (Step F' out) (.init query proofExtension) ls s

/-- **The sets of active arguments in a call of `solve`**, producer by producer. -/
inductive OccursInSolve (F : AF) (query : ℕ) (proofExtension : List ℕ) : VectorBitSet → Prop
  | cone {F' : AF} {active : VectorBitSet} (computed : ConeComputed F query F' active) :
      OccursInSolve F query proofExtension active
  -- `out_reduct` when a round of the worklist starts, the first and the last included
  | outReduct {F' : AF} {active : VectorBitSet} {taken : List ℕ} {st : GroundedState}
      (computed : ConeComputed F query F' active)
      (run : Transition.Run (GroundedStep F' query) (groundedStart F' active) taken st) :
      OccursInSolve F query proofExtension st.outReduct
  -- what the search is called with
  | initialReduct {F' : AF} {out : VectorBitSet}
      (undecided : process F query ⟨[], []⟩ = some (F', .unknown, out)) :
      OccursInSolve F query proofExtension out
  -- `get_reduct_set` has come past `x :: l` in the extension of an activation
  | passed {F' : AF} {out : VectorBitSet} {s : SearchState} {i x : ℕ} {a : Activation}
      {l : List ℕ} (reaches : SearchReaches F query proofExtension F' out s)
      (active : s.activations[i]? = some a) (part : x :: l <+: a.extensionBuild) :
      OccursInSolve F query proofExtension (getReductLoop F' (getReduct out F' x) l)
  -- what an activation builds, also when it returns for a small reduct
  | built {F' : AF} {out R : VectorBitSet} {s : SearchState} {i : ℕ} {a : Activation}
      (reaches : SearchReaches F query proofExtension F' out s)
      (active : s.activations[i]? = some a)
      (build : buildReduct F' out a.extensionBuild = some R) :
      OccursInSolve F query proofExtension R
  -- the variable `reduct` of an activation while it has a solver
  | held {F' : AF} {out : VectorBitSet} {s : SearchState} {i : ℕ} {a : Activation}
      (reaches : SearchReaches F query proofExtension F' out s)
      (active : s.activations[i]? = some a) (inside : a.point.Inside) :
      OccursInSolve F query proofExtension a.reduct
  | copy {t : VectorBitSet} (occurs : OccursInSolve F query proofExtension t) :
      OccursInSolve F query proofExtension t.copy

variable {F F' : AF} {A active out out₀ : VectorBitSet} {q i : ℕ} {proof : List ℕ}
  {s s' : SearchState} {ℓ : Action} {a b : Activation} {e : Effect} {flag : Bool}
  {answer : Option (ℕ → Bool)}

/-! ## Preprocessing -/

/-- An undecided query has been through both stages. -/
theorem exists_coneComputed (h : process F q out₀ = some (F', .unknown, out)) :
    ∃ active, ConeComputed F q F' active ∧ reduceByGrounded F' active q = some (.unknown, out) := by
  unfold process at h
  split at h
  · exact absurd h (by simp)
  · next hself =>
    split at h
    · exact absurd h (by simp)
    · next hattacked =>
      obtain ⟨⟨F₁, active⟩, hcone, hred⟩ := Option.bind_eq_some_iff.mp h
      obtain ⟨⟨result, out₁⟩, hground, heq⟩ := Option.map_eq_some_iff.mp hred
      obtain ⟨rfl, rfl, rfl⟩ : F₁ = F' ∧ result = .unknown ∧ out₁ = out := by
        simpa using heq
      exact ⟨active, ⟨hself, hattacked, hcone⟩, hground⟩

/-- The cone in a framework with arbitrary distances. -/
theorem ConeComputed.exists_coneResult (h : ConeComputed F q F' active) (hF : F.Coherent)
    (hq : q ∈ F.args) : ∃ d, d.length = F.numArgs + 1 ∧ F' = { F with distanceToQuery := d } ∧
      ConeResult F q d active := by
  obtain ⟨d, active', hcone, hres⟩ := calculateConeInfluence_spec hF hq
  rw [h.cone, Option.some.injEq, Prod.mk.injEq] at hcone
  obtain ⟨rfl, rfl⟩ := hcone
  exact ⟨d, hres.length, rfl, hres⟩

/-- The first producer. -/
theorem ConeComputed.agrees (h : ConeComputed F q F' active) (hF : F.Coherent) (hq : q ∈ F.args) :
    VectorBitSet.Matches F.numArgs active := by
  obtain ⟨d, -, -, hres⟩ := h.exists_coneResult hF hq
  exact hres.agrees

/-- The worklist runs on the cone. -/
theorem ConeComputed.groundedInv (h : ConeComputed F q F' active) (hF : F.Coherent)
    (hq : q ∈ F.args) {taken : List ℕ} {st : GroundedState}
    (hrun : Transition.Run (GroundedStep F' q) (groundedStart F' active) taken st) :
    F'.numArgs = F.numArgs ∧ GroundedInv F' active q st taken := by
  obtain ⟨d, hd, rfl, hres⟩ := h.exists_coneResult hF hq
  have hF' := hF.withDistance hd
  exact ⟨rfl, (groundedInv_groundedStart hF' hres.agrees hres.query_mem).run hF' hrun⟩

/-- The second producer. -/
theorem ConeComputed.agrees_outReduct (h : ConeComputed F q F' active) (hF : F.Coherent)
    (hq : q ∈ F.args) {taken : List ℕ} {st : GroundedState}
    (hrun : Transition.Run (GroundedStep F' q) (groundedStart F' active) taken st) :
    VectorBitSet.Matches F.numArgs st.outReduct := by
  obtain ⟨hn, hinv⟩ := h.groundedInv hF hq hrun
  rw [← hn]
  exact hinv.agrees

/-! ## The search -/

/-- An activation changes its reduct only by building it again. -/
theorem Activation.reduct_onAnswer : (a.onAnswer F A).1.reduct = a.reduct ∨
    buildReduct F A a.extensionBuild = some (a.onAnswer F A).1.reduct := by
  unfold onAnswer
  split
  · left
    split <;> rfl
  · simp only
    split
    · left
      split <;> rfl
    · split
      · exact Or.inl rfl
      · split
        · exact Or.inl rfl
        · split
          · next hbuild => exact Or.inr hbuild
          · exact Or.inl rfl

/-- A reduct that an activation holds after a step was there before, or has just been built. -/
theorem Activation.reduct_advance (h : a.advance F A flag answer = some (b, e))
    (hinside : b.point.Inside) : (a.point.Inside ∧ b.reduct = a.reduct) ∨
      buildReduct F A a.extensionBuild = some b.reduct := by
  cases advanced_of_advance h with
  | encoded point build => exact Or.inr build
  | spawn point sat found passes omits priority build => exact Or.inr build
  | armed point => exact Or.inl ⟨Or.inl point, rfl⟩
  | call point => exact Or.inl ⟨Or.inr (Or.inl point), rfl⟩
  | abort point => exact Or.inl ⟨Or.inr (Or.inr (Or.inl point)), rfl⟩
  | again point => exact Or.inl ⟨Or.inr (Or.inr (Or.inr point)), rfl⟩
  | fault why same =>
    rw [same.2.2.2.2] at hinside
    have hpoint : a.point = .answered := by
      rcases why.point with hpoint | hpoint
      · rw [hpoint] at hinside
        exact absurd hinside (by decide)
      · exact hpoint
    have hstep : a.onAnswer F A = (b, .fault) := by
      unfold advance at h
      simp only [hpoint, Option.some.injEq] at h
      exact h
    have hreduct := reduct_onAnswer (F := F) (A := A) (a := a)
    rw [hstep] at hreduct
    exact hreduct.imp (fun heq => ⟨hinside, heq⟩) fun hbuild => hbuild
  | cutOff _ _ _ _ point =>
    rw [point] at hinside
    exact absurd hinside (by decide)
  | entered => exact absurd hinside (by decide : ¬ Point.encode.Inside)
  | reject => exact absurd hinside (by decide : ¬ Point.handOver.Inside)
  | handOver => exact absurd hinside (by decide : ¬ Point.assigning.Inside)
  | ret => exact absurd hinside (by decide : ¬ Point.returned.Inside)
  | _ => exact absurd hinside (by decide : ¬ Point.leaving.Inside)

/-- **The fourth producer**, at every activation and for whatever values its task has seen. -/
def ReductsAgree (F : AF) (s : SearchState) : Prop :=
  ∀ (i : ℕ) (a : Activation), s.activations[i]? = some a → a.point.Inside →
    VectorBitSet.Matches F.numArgs a.reduct

theorem ReductsAgree.step (hF : F.Coherent) (hA : VectorBitSet.Matches F.numArgs A)
    (h : ReductsAgree F s) (hstep : Step F A s ℓ s') : ReductsAgree F s' := by
  intro i b hb hinside
  rcases hstep.activation_cases hb with hold | ⟨a, e, answer, -, ha, hadv⟩ |
    ⟨k, t, x, p, -, -, -, rfl⟩
  · exact h i b hold hinside
  · rcases Activation.reduct_advance hadv hinside with ⟨hbefore, heq⟩ | hbuild
    · rw [heq]
      exact h i a ha hbefore
    · exact (isReduct_of_build hF hA hbuild).agrees
  · exact absurd hinside (by decide : ¬ Point.entry.Inside)

theorem ReductsAgree.run (hF : F.Coherent) (hA : VectorBitSet.Matches F.numArgs A)
    {ls : List Action} (hrun : Transition.Run (Step F A) (.init q proof) ls s) :
    ReductsAgree F s := by
  refine hrun.invariant (fun _ _ _ hinv hstep => hinv.step hF hA hstep) ?_
  intro i a ha hinside
  obtain ⟨-, rfl⟩ := SearchState.eq_enter_of_init ha
  exact absurd hinside (by decide : ¬ Point.entry.Inside)

/-- What the search runs on. -/
theorem SearchReaches.coherent_agrees (h : SearchReaches F q proof F' out s) (hF : F.Coherent)
    (hq : q ∈ F.args) :
    F'.Coherent ∧ F'.numArgs = F.numArgs ∧ VectorBitSet.Matches F'.numArgs out := by
  have hres := processResult_of_eq hF hq h.undecided
  have hin := hres.searchInput hF hq
  obtain ⟨d, -, rfl⟩ := hres.framework hF
  exact ⟨hin.coherent, rfl, hin.agrees⟩

/-! ## All of them -/

/-- **The invariant of every set of active arguments.** -/
theorem OccursInSolve.agrees (hF : F.Coherent) (hq : q ∈ F.args) {t : VectorBitSet}
    (h : OccursInSolve F q proof t) : VectorBitSet.Matches F.numArgs t := by
  induction h with
  | cone computed => exact computed.agrees hF hq
  | outReduct computed run => exact computed.agrees_outReduct hF hq run
  | initialReduct undecided =>
    -- the last reduct of the worklist
    obtain ⟨active, computed, hground⟩ := exists_coneComputed undecided
    obtain ⟨taken, st, hrun, -, rfl⟩ := exists_run_of_groundedLoop _ hground
    exact computed.agrees_outReduct hF hq hrun
  | passed reaches active part =>
    obtain ⟨hF', hn, hout⟩ := reaches.coherent_agrees hF hq
    rw [← hn]
    exact getReductLoop_matches hF' _ _ (getReduct_matches hF' hout)
  | built reaches active build =>
    obtain ⟨hF', hn, hout⟩ := reaches.coherent_agrees hF hq
    rw [← hn]
    exact (isReduct_of_build hF' hout build).agrees
  | held reaches active inside =>
    obtain ⟨hF', hn, hout⟩ := reaches.coherent_agrees hF hq
    obtain ⟨ls, hrun⟩ := reaches.run
    rw [← hn]
    exact ReductsAgree.run hF' hout hrun _ _ active inside
  | copy _ ih =>
    rw [ih.copy_eq_self]
    exact ih

/-- **Every set of active arguments is well formed, and no copy loses an argument.**  In a call
of `solve` on a fresh framework the vector of each of them has no duplicates, the bitset has
`num_args + 1` bits, a bit is set exactly for the members, and `copy` returns an equal
value. -/
theorem occursInSolve_agrees (W : WellFormed) {q : ℕ} (h1 : 1 ≤ q) (hn : q ≤ W.n)
    {proof : List ℕ} {t : VectorBitSet} (h : OccursInSolve W.af q proof t) :
    VectorBitSet.Matches W.n t ∧ t.copy = t := by
  have hagrees := h.agrees W.coherent (WellFormed.mem_args h1 hn)
  rw [WellFormed.af, buildAF_numArgs] at hagrees
  exact ⟨hagrees, hagrees.copy_eq_self⟩

theorem occursInSolve_agrees_choice :
    VectorBitSet.Matches 4 choiceActive.copy ∧ choiceActive.copy.copy = choiceActive.copy := by
  have hcopy : OccursInSolve choiceFramework.af 1 [] choiceActive.copy :=
    .copy (.initialReduct process_choice)
  exact occursInSolve_agrees choiceFramework (by decide) (by decide) hcopy

end AFAnalyzer
