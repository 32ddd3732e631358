import AFAnalyzer.Logic.Encoding
import Mathlib.Data.Set.Function

/-!
# The models of the encoding

`satisfies_encodingClauses` says what a model of the encoding is; this module says that
a model holds nothing else.  The clauses over an active set `R` mention the two variables
of each active argument and no others (`clauseVars_encodingClauses`).  In a model the
second variable is determined by the first ones: an argument is rejected exactly when an
accepted argument attacks it (`Labelled.rejected_iff`).  So reading off the accepted
arguments loses nothing, and `encoding_bijOn` pairs the models over exactly these
variables with the nonempty admissible sets of the sub-framework.
-/

namespace AFAnalyzer

open SatSolverCadical

/-- The variables of the active arguments, with `n` arguments in the framework. -/
def encodingVars (n : ℕ) (R : VectorBitSet) : Set ℕ := {x | ∃ a ∈ R.args, x = a ∨ x = a + n}

variable {n : ℕ} {F : AF} {R : VectorBitSet} {v w : ℕ → Bool} {a b x : ℕ} {S : Set ℕ}

theorem accepted_mem_encodingVars (ha : a ∈ R.args) : a ∈ encodingVars n R := ⟨a, ha, Or.inl rfl⟩

/-- The active arguments that an assignment of these variables accepts. -/
def acceptedOn (n : ℕ) (R : VectorBitSet) (f : encodingVars n R → Bool) : Set ℕ :=
  {a | ∃ ha : a ∈ R.args, f ⟨a, accepted_mem_encodingVars ha⟩ = true}

@[simp] theorem acceptedOn_domRestrict :
    acceptedOn n R ((encodingVars n R).domRestrict v) = acceptedArgs R v := by
  ext a
  constructor
  · rintro ⟨ha, hva⟩
    exact ⟨ha, hva⟩
  · rintro ⟨ha, hva⟩
    exact ⟨ha, hva⟩

/-! ## The variables that occur -/

/-- The clauses for an attacker mention the variables of the two arguments. -/
theorem natAbs_attackerClauses {c : List ℤ} (hc : c ∈ attackerClauses n a b) {ℓ : ℤ} (hℓ : ℓ ∈ c) :
    (ℓ.natAbs = a ∨ ℓ.natAbs = a + n) ∨ ℓ.natAbs = b ∨ ℓ.natAbs = b + n := by
  unfold attackerClauses at hc
  by_cases hab : a = b
  · simp only [ne_eq, hab, not_true_eq_false, if_false, if_true, List.append_nil,
      List.singleton_append, List.mem_cons, List.not_mem_nil, or_false] at hc
    rcases hc with rfl | rfl
    all_goals
      simp only [List.mem_cons, List.not_mem_nil, or_false] at hℓ
      omega
  · simp only [ne_eq, hab, not_false_eq_true, if_true, if_false, List.cons_append,
      List.nil_append, List.mem_cons, List.not_mem_nil, or_false] at hc
    rcases hc with rfl | rfl | rfl
    all_goals
      simp only [List.mem_cons, List.not_mem_nil, or_false] at hℓ
      omega

/-- **The clauses are over the variables of the active arguments, and mention all of
them.** -/
theorem clauseVars_encodingClauses (hF : F.Coherent) (hR : VectorBitSet.Matches F.numArgs R) :
    Sat.clauseVars (encodingClauses F R) = encodingVars F.numArgs R := by
  ext x
  constructor
  · rintro ⟨c, hc, ℓ, hℓ, rfl⟩
    rcases List.mem_append.mp hc with hc | hc
    · obtain ⟨a, ha, hc⟩ := List.mem_flatMap.mp hc
      rcases List.mem_append.mp hc with hc | hc
      · rcases List.mem_append.mp hc with hc | hc
        · rw [List.mem_singleton.mp hc] at hℓ
          refine ⟨a, ha, ?_⟩
          simp only [List.mem_cons, List.not_mem_nil, or_false] at hℓ
          omega
        · obtain ⟨b, hb, hc⟩ := List.mem_flatMap.mp hc
          rcases natAbs_attackerClauses hc hℓ with h | h
          · exact ⟨a, ha, h⟩
          · exact ⟨b, ((mem_activeAttackers hF hR).mp hb).1, h⟩
      · rw [List.mem_singleton.mp hc] at hℓ
        rcases List.mem_cons.mp hℓ with rfl | hℓ
        · exact ⟨a, ha, Or.inr (by omega)⟩
        · obtain ⟨b, hb, rfl⟩ := List.mem_map.mp hℓ
          exact ⟨b, ((mem_activeAttackers hF hR).mp hb).1, Or.inl (Int.natAbs_natCast b)⟩
    · rw [List.mem_singleton.mp hc] at hℓ
      obtain ⟨a, ha, rfl⟩ := List.mem_map.mp hℓ
      exact ⟨a, ha, Or.inl (Int.natAbs_natCast a)⟩
  · rintro ⟨a, ha, hx⟩
    -- the first clause of an active argument has both of its variables
    have hmem : [-(a + F.numArgs : ℤ), -(a : ℤ)] ∈ encodingClauses F R :=
      List.mem_append_left _ (List.mem_flatMap.mpr ⟨a, ha,
        List.mem_append_left _ (List.mem_append_left _ (List.mem_singleton.mpr rfl))⟩)
    rcases hx with rfl | rfl
    · exact ⟨_, hmem, -(x : ℤ), List.mem_cons_of_mem _ (List.mem_singleton.mpr rfl), by omega⟩
    · exact ⟨_, hmem, -(a + F.numArgs : ℤ), List.mem_cons_self, by omega⟩

/-! ## A model is its set of accepted arguments -/

/-- **The rejected arguments are those that the accepted ones attack.** -/
theorem Labelled.rejected_iff (h : Labelled F R v a) :
    v (a + F.numArgs) = true ↔ Dung.Attacks F.att (acceptedArgs R v) a := by
  constructor
  · intro hrej
    obtain ⟨b, hb, hba, hvb⟩ := h.reason hrej
    exact ⟨b, ⟨hb, hvb⟩, hba⟩
  · rintro ⟨b, ⟨hb, hvb⟩, hba⟩
    exact h.attacked b hb hba hvb

/-- Two models that accept the same arguments agree on every variable of the encoding. -/
theorem domRestrict_eq_of_acceptedArgs_eq (hF : F.Coherent)
    (hR : VectorBitSet.Matches F.numArgs R) (hrange : ∀ a ∈ R.vector, a ∈ F.args)
    (hv : Sat.Satisfies v (encodingClauses F R)) (hw : Sat.Satisfies w (encodingClauses F R))
    (h : acceptedArgs R v = acceptedArgs R w) :
    (encodingVars F.numArgs R).domRestrict v = (encodingVars F.numArgs R).domRestrict w := by
  obtain ⟨hvlab, -⟩ := (satisfies_encodingClauses hF hR hrange).mp hv
  obtain ⟨hwlab, -⟩ := (satisfies_encodingClauses hF hR hrange).mp hw
  funext ⟨x, a, ha, hx⟩
  show v x = w x
  rw [Bool.eq_iff_iff]
  rcases hx with rfl | rfl
  · have hiff : x ∈ acceptedArgs R v ↔ x ∈ acceptedArgs R w := by rw [h]
    exact ⟨fun hvx => (hiff.mp ⟨ha, hvx⟩).2, fun hwx => (hiff.mpr ⟨ha, hwx⟩).2⟩
  · rw [(hvlab a ha).rejected_iff, (hwlab a ha).rejected_iff, h]

/-- The models over the variables of the encoding, and the sets they accept. -/
theorem acceptedOn_bijOn (hF : F.Coherent) (hR : VectorBitSet.Matches F.numArgs R)
    (hrange : ∀ a ∈ R.vector, a ∈ F.args) :
    Set.BijOn (acceptedOn F.numArgs R)
      (Sat.modelsOn (encodingVars F.numArgs R) (encodingClauses F R))
      {S | Dung.Admissible F.att R.args S ∧ S.Nonempty} := by
  have hvars := (clauseVars_encodingClauses hF hR).subset
  refine ⟨fun f hf => ?_, fun f hf g hg hfg => ?_, fun S hS => ?_⟩
  · obtain ⟨v, rfl⟩ := Sat.exists_domRestrict_eq f
    rw [acceptedOn_domRestrict]
    exact admissible_of_satisfies hF hR hrange (hf v rfl)
  · obtain ⟨v, rfl⟩ := Sat.exists_domRestrict_eq f
    obtain ⟨w, rfl⟩ := Sat.exists_domRestrict_eq g
    rw [acceptedOn_domRestrict, acceptedOn_domRestrict] at hfg
    exact domRestrict_eq_of_acceptedArgs_eq hF hR hrange (hf v rfl) (hg w rfl) hfg
  · obtain ⟨hadm, hne⟩ := hS
    refine ⟨(encodingVars F.numArgs R).domRestrict (modelOf F S), ?_, ?_⟩
    · exact (Sat.domRestrict_mem_modelsOn hvars).mpr
        (satisfies_of_admissible hF hR hrange hadm hne)
    · rw [acceptedOn_domRestrict]
      exact acceptedArgs_modelOf hrange hadm.subset

/-- Decoding lists the accepted arguments, each once. -/
theorem getSetFromSolver_solve (hF : F.Coherent) (s : SatSolverCadical)
    (hR : VectorBitSet.Matches F.numArgs R)
    (hrange : ∀ a ∈ R.vector, a ∈ F.args) :
    (getSetFromSolver (s.solve (some v)).1 R).Nodup ∧
      listArgs (getSetFromSolver (s.solve (some v)).1 R) = acceptedArgs R v := by
  have hdecode : getSetFromSolver (s.solve (some v)).1 R = R.vector.filter v :=
    getSetFromSolver_eq rfl fun a ha => hF.id_range (hrange a ha)
  rw [hdecode]
  refine ⟨hR.nodup.filter _, ?_⟩
  ext a
  exact List.mem_filter

/-- **The encoding is exact.**  The literals that `add_clauses_nonempty_admissible_set`
sends form finished clauses over the variables `a` and `a + num_args` of the active
arguments.  Reading the accepted arguments off a model over these variables is a bijection
onto the nonempty admissible sets of the sub-framework, and `get_set_from_solver` reads
them off any model that the solver may hold, without duplicates. -/
theorem encoding_bijOn (W : WellFormed) (A : ActiveArgs W.n) (numberVariables : ℕ) :
    let s := addClausesNonemptyAdmissibleSet (.new numberVariables) W.af A.toVectorBitSet
    s.cadical.pending = [] ∧
      Sat.clauseVars s.cadical.clauses = encodingVars W.n A.toVectorBitSet ∧
      Set.BijOn (acceptedOn W.n A.toVectorBitSet)
        (Sat.modelsOn (encodingVars W.n A.toVectorBitSet) s.cadical.clauses)
        {S | Dung.Admissible W.af.att A.args S ∧ S.Nonempty} ∧
      ∀ v, Sat.Satisfies v s.cadical.clauses →
        (getSetFromSolver (s.solve (some v)).1 A.toVectorBitSet).Nodup ∧
          listArgs (getSetFromSolver (s.solve (some v)).1 A.toVectorBitSet) =
            acceptedOn W.n A.toVectorBitSet
              ((encodingVars W.n A.toVectorBitSet).domRestrict v) := by
  have hF := W.coherent
  have hn : W.af.numArgs = W.n := buildAF_numArgs
  have hR := A.matches_af
  have hclauses : (addClausesNonemptyAdmissibleSet (.new numberVariables) W.af
      A.toVectorBitSet).cadical = ⟨encodingClauses W.af A.toVectorBitSet, []⟩ := by
    rw [encode_eq hF A.mem_args rfl]
    rfl
  intro s
  have hvars := clauseVars_encodingClauses hF hR
  have hbij := acceptedOn_bijOn hF hR A.mem_args
  rw [hn] at hvars hbij
  refine ⟨congrArg Sat.ClauseStream.pending hclauses, ?_, ?_, fun v _ => ?_⟩
  · rw [hclauses]
    exact hvars
  · rw [hclauses]
    exact hbij
  · rw [acceptedOn_domRestrict]
    exact getSetFromSolver_solve hF s hR A.mem_args

end AFAnalyzer
