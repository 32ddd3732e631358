import AFAnalyzer.Dung.Admissible
import AFAnalyzer.Logic.AF
import AFAnalyzer.Logic.SatSolver
import AFAnalyzer.Logic.Reduct

/-!
# `Encoding`: nonempty admissible sets as clauses

Argument `a` is encoded by two variables: `a` says that it is accepted, `a +
num_args` that it is rejected, that is, attacked by an accepted argument.  Five
kinds of clauses are sent for every active argument and each of its active
attackers, and one clause says that something is accepted.

The functions thread the solver as the source does.  `encode_eq` collects what they
send as one list of clauses, `encodingClauses`, and `satisfies_encodingClauses`
reads that list as conditions on the two families of variables.  From there:

* `admissible_of_satisfies`: a model accepts a nonempty admissible set of the
  sub-framework;
* `satisfies_of_admissible`: every nonempty admissible set is accepted by its
  `modelOf`;
* `satisfies_complementClause`: the complement clause of a set excludes exactly the
  models that accept all of it.
-/

namespace AFAnalyzer

open SatSolverCadical

/-! ## The source functions -/

/-- `get_literal_accepted`. -/
def getLiteralAccepted (argument : ℕ) (isInverted : Bool) : ℤ :=
  let var : ℤ := argument
  if isInverted then -1 * var else var

/-- `get_literal_rejected`. -/
def getLiteralRejected (argsSize argument : ℕ) (isInverted : Bool) : ℤ :=
  let var : ℤ := argument + argsSize
  if isInverted then -1 * var else var

/-- `add_rejected_clauses`: an argument is not both accepted and rejected.  Returns
the beginning of the rejection reason clause. -/
def addRejectedClauses (s : SatSolverCadical) (argsSize argument : ℕ) :
    SatSolverCadical × List ℤ :=
  (s.addClauseShort (getLiteralRejected argsSize argument true) (getLiteralAccepted argument true),
    [getLiteralRejected argsSize argument true])

/-- `add_rejected_clauses_per_attacker`: an accepted attacker rejects the argument,
and is a reason for its rejection. -/
def addRejectedClausesPerAttacker (s : SatSolverCadical) (argsSize argument attacker : ℕ)
    (rejectionReasonClause : List ℤ) : SatSolverCadical × List ℤ :=
  (s.addClauseShort (getLiteralRejected argsSize argument false)
      (getLiteralAccepted attacker true),
    rejectionReasonClause ++ [getLiteralAccepted attacker false])

/-- `add_conflict_free_per_attacker`. -/
def addConflictFreePerAttacker (s : SatSolverCadical) (argument attacker : ℕ) :
    SatSolverCadical :=
  if argument ≠ attacker then
    s.addClauseShort (getLiteralAccepted argument true) (getLiteralAccepted attacker true)
  else s.addClauseShort (getLiteralAccepted argument true) 0

/-- `add_defense_per_attacker`: an accepted argument has its attackers rejected. -/
def addDefensePerAttacker (s : SatSolverCadical) (argsSize argument attacker : ℕ) :
    SatSolverCadical :=
  if argument = attacker then s
  else
    s.addClauseShort (getLiteralAccepted argument true)
      (getLiteralRejected argsSize attacker false)

/-- The body of the loop of `add_admissible` over the attackers of the argument. -/
def addAttacker (F : AF) (activeArgs : VectorBitSet) (argument : ℕ)
    (st : SatSolverCadical × List ℤ) (attacker : ℕ) : SatSolverCadical × List ℤ :=
  if activeArgs.bit attacker = true then
    let (s, reason) := addRejectedClausesPerAttacker st.1 F.numArgs argument attacker st.2
    (addDefensePerAttacker (addConflictFreePerAttacker s argument attacker) F.numArgs argument
      attacker, reason)
  else st

/-- `add_admissible`. -/
def addAdmissible (s : SatSolverCadical) (F : AF) (activeArgs : VectorBitSet) (argument : ℕ) :
    SatSolverCadical :=
  let (s, rejectionReasonClause) := (F.attackersAt argument).vector.foldl
    (addAttacker F activeArgs argument) (addRejectedClauses s F.numArgs argument)
  s.addClause rejectionReasonClause

/-- `Encoding::add_clauses_nonempty_admissible_set`. -/
def addClausesNonemptyAdmissibleSet (s : SatSolverCadical) (F : AF) (activeArgs : VectorBitSet) :
    SatSolverCadical :=
  let (s, nonEmptyClause) := activeArgs.vector.foldl
    (fun (st : SatSolverCadical × List ℤ) argument =>
      (addAdmissible st.1 F activeArgs argument, st.2 ++ [getLiteralAccepted argument false]))
    (s, [])
  s.addClause nonEmptyClause

/-- `Encoding::add_complement_clause`. -/
def addComplementClause (s : SatSolverCadical) (activeArgs : VectorBitSet) : SatSolverCadical :=
  s.addClause (activeArgs.vector.foldl
    (fun (clause : List ℤ) (a : ℕ) =>
      if s.checkVarModel (a : ℤ) = true then clause ++ [-1 * (a : ℤ)] else clause) [])

/-! ## The clauses that are sent -/

/-- The clauses for one active attacker `b` of `a`. -/
def attackerClauses (n a b : ℕ) : List (List ℤ) :=
  [[(a + n : ℤ), -(b : ℤ)]] ++ (if a ≠ b then [[-(a : ℤ), -(b : ℤ)]] else [[-(a : ℤ)]]) ++
    if a = b then [] else [[-(a : ℤ), (b + n : ℤ)]]

/-- The attackers of `a` that are active in `R`, in the order of the framework. -/
def activeAttackers (F : AF) (R : VectorBitSet) (a : ℕ) : List ℕ :=
  (F.attackersAt a).vector.filter fun b => R.bit b

/-- The clauses of `add_admissible`. -/
def admissibleClauses (F : AF) (R : VectorBitSet) (a : ℕ) : List (List ℤ) :=
  [[-(a + F.numArgs : ℤ), -(a : ℤ)]] ++
    (activeAttackers F R a).flatMap (attackerClauses F.numArgs a) ++
    [-(a + F.numArgs : ℤ) :: (activeAttackers F R a).map fun (b : ℕ) => (b : ℤ)]

/-- All clauses of the encoding. -/
def encodingClauses (F : AF) (R : VectorBitSet) : List (List ℤ) :=
  R.vector.flatMap (admissibleClauses F R) ++ [R.vector.map fun (a : ℕ) => (a : ℤ)]

variable {F : AF} {R : VectorBitSet} {s : SatSolverCadical} {v : ℕ → Bool} {a b : ℕ}

theorem inRange_accepted (hF : F.Coherent) (ha : a ∈ F.args) : InRange (a : ℤ) := by
  have h1 := ha.1
  have h2 := ha.2
  have h3 := hF.bound
  exact ⟨by omega, by omega, by omega⟩

theorem inRange_neg_accepted (hF : F.Coherent) (ha : a ∈ F.args) : InRange (-(a : ℤ)) := by
  have h1 := ha.1
  have h2 := ha.2
  have h3 := hF.bound
  exact ⟨by omega, by omega, by omega⟩

theorem inRange_rejected (hF : F.Coherent) (ha : a ∈ F.args) :
    InRange (a + F.numArgs : ℤ) := by
  have h1 := ha.1
  have h2 := ha.2
  have h3 := hF.bound
  exact ⟨by omega, by omega, by omega⟩

theorem inRange_neg_rejected (hF : F.Coherent) (ha : a ∈ F.args) :
    InRange (-(a + F.numArgs : ℤ)) := by
  have h1 := ha.1
  have h2 := ha.2
  have h3 := hF.bound
  exact ⟨by omega, by omega, by omega⟩

/-- One active attacker. -/
theorem addAttacker_eq (hF : F.Coherent) (ha : a ∈ F.args) (hb : b ∈ F.args)
    (hp : s.cadical.pending = []) (reason : List ℤ) (hbit : R.bit b = true) :
    addAttacker F R a (s, reason) b =
      (s.withClauses (attackerClauses F.numArgs a b), reason ++ [(b : ℤ)]) := by
  have hrej : s.addClauseShort (getLiteralRejected F.numArgs a false) (-(b : ℤ)) =
      s.withClauses [[(a + F.numArgs : ℤ), -(b : ℤ)]] :=
    addClauseShort_eq hp (inRange_rejected hF ha) (inRange_neg_accepted hF hb)
  have hneg : getLiteralAccepted a true = -(a : ℤ) := by simp [getLiteralAccepted]
  have hnegb : getLiteralAccepted b true = -(b : ℤ) := by simp [getLiteralAccepted]
  simp only [addAttacker, if_pos hbit, addRejectedClausesPerAttacker, addConflictFreePerAttacker,
    addDefensePerAttacker, hneg, hnegb, hrej, attackerClauses]
  have hp1 : (s.withClauses [[(a + F.numArgs : ℤ), -(b : ℤ)]]).cadical.pending = [] := hp
  by_cases hab : a = b
  · subst hab
    simp only [ne_eq, not_true_eq_false, if_false, if_true, List.append_nil]
    rw [addClauseShort_zero hp1 (inRange_neg_accepted hF ha), withClauses_withClauses]
    rfl
  · simp only [ne_eq, hab, not_false_eq_true, if_true, if_false]
    rw [addClauseShort_eq hp1 (inRange_neg_accepted hF ha) (inRange_neg_accepted hF hb),
      withClauses_withClauses]
    have hdef : ∀ s : SatSolverCadical, s.cadical.pending = [] →
        s.addClauseShort (-(a : ℤ)) (getLiteralRejected F.numArgs b false) =
          s.withClauses [[-(a : ℤ), (b + F.numArgs : ℤ)]] := fun s hs =>
      addClauseShort_eq hs (inRange_neg_accepted hF ha) (inRange_rejected hF hb)
    rw [hdef (s.withClauses _) hp, withClauses_withClauses]
    rfl

theorem foldl_addAttacker (hF : F.Coherent) (ha : a ∈ F.args) (l : List ℕ)
    (hl : ∀ b ∈ l, b ∈ F.args) (hp : s.cadical.pending = []) (reason : List ℤ) :
    l.foldl (addAttacker F R a) (s.withClauses [], reason) =
      (s.withClauses ((l.filter fun b => R.bit b).flatMap (attackerClauses F.numArgs a)),
        reason ++ (l.filter fun b => R.bit b).map fun (b : ℕ) => (b : ℤ)) := by
  induction l generalizing s reason with
  | nil => simp
  | cons b l ih =>
    have hl' : ∀ c ∈ l, c ∈ F.args := fun c hc => hl c (List.mem_cons_of_mem b hc)
    rw [List.foldl_cons]
    by_cases hbit : R.bit b = true
    · rw [addAttacker_eq (s := s.withClauses []) hF ha (hl b List.mem_cons_self) hp reason hbit,
        List.filter_cons_of_pos hbit, List.flatMap_cons, List.map_cons]
      have hstep := ih (s := (s.withClauses []).withClauses (attackerClauses F.numArgs a b)) hl' hp
        (reason ++ [(b : ℤ)])
      simp only [withClauses_withClauses, List.nil_append, List.append_nil] at hstep ⊢
      rw [hstep, List.append_assoc, List.singleton_append]
    · rw [List.filter_cons_of_neg hbit, ← ih hl' hp reason]
      congr 1
      exact if_neg hbit

/-- What `add_admissible` sends. -/
theorem addAdmissible_eq (hF : F.Coherent) (ha : a ∈ F.args) (hp : s.cadical.pending = []) :
    addAdmissible s F R a = s.withClauses (admissibleClauses F R a) := by
  have hacc : getLiteralAccepted a true = -(a : ℤ) := by simp [getLiteralAccepted]
  have hrej : getLiteralRejected F.numArgs a true = -(a + F.numArgs : ℤ) := by
    simp [getLiteralRejected]
  have hfirst : addRejectedClauses s F.numArgs a =
      ((s.withClauses [[-(a + F.numArgs : ℤ), -(a : ℤ)]]).withClauses [],
        [-(a + F.numArgs : ℤ)]) := by
    rw [addRejectedClauses, hacc, hrej,
      addClauseShort_eq hp (inRange_neg_rejected hF ha) (inRange_neg_accepted hF ha)]
    simp
  have hattackers : ∀ b ∈ (F.attackersAt a).vector, b ∈ F.args := fun b hb =>
    (hF.att_args ((hF.mem_attackers a b).mp hb)).1
  rw [addAdmissible, hfirst, foldl_addAttacker hF ha _ hattackers (by exact hp)]
  simp only [withClauses_withClauses]
  rw [addClause_eq (by exact hp)]
  · rw [withClauses_withClauses]
    rfl
  · intro ℓ hℓ
    rcases List.mem_append.mp hℓ with hℓ | hℓ
    · rw [List.mem_singleton.mp hℓ]
      exact inRange_neg_rejected hF ha
    · obtain ⟨b, hb, rfl⟩ := List.mem_map.mp hℓ
      exact inRange_accepted hF (hattackers b (List.mem_filter.mp hb).1)

/-- The loop of the encoding over a list of active arguments. -/
theorem foldl_addAdmissible (hF : F.Coherent) (l : List ℕ) (hl : ∀ a ∈ l, a ∈ F.args)
    (hp : s.cadical.pending = []) (acc : List ℤ) :
    let st := l.foldl (fun (st : SatSolverCadical × List ℤ) argument =>
      (addAdmissible st.1 F R argument, st.2 ++ [getLiteralAccepted argument false])) (s, acc)
    st.1.cadical.pending = [] ∧
      (∀ ds, st.1.withClauses ds = s.withClauses (l.flatMap (admissibleClauses F R) ++ ds)) ∧
      st.2 = acc ++ l.map fun (a : ℕ) => (a : ℤ) := by
  induction l generalizing s acc with
  | nil => exact ⟨hp, fun ds => by simp, by simp⟩
  | cons a l ih =>
    have hstep : addAdmissible s F R a = s.withClauses (admissibleClauses F R a) :=
      addAdmissible_eq hF (hl a List.mem_cons_self) hp
    have hp' : (addAdmissible s F R a).cadical.pending = [] := by
      rw [hstep]
      exact hp
    obtain ⟨h1, h2, h3⟩ := ih (fun b hb => hl b (List.mem_cons_of_mem a hb)) hp'
      (acc ++ [getLiteralAccepted a false])
    refine ⟨h1, fun ds => ?_, ?_⟩
    · refine (h2 ds).trans ?_
      rw [hstep, withClauses_withClauses, List.flatMap_cons, List.append_assoc]
    · refine h3.trans ?_
      simp [getLiteralAccepted]

/-- **What the encoding sends.** -/
theorem encode_eq (hF : F.Coherent) (hR : ∀ a ∈ R.vector, a ∈ F.args)
    (hp : s.cadical.pending = []) :
    addClausesNonemptyAdmissibleSet s F R = s.withClauses (encodingClauses F R) := by
  obtain ⟨h1, h2, h3⟩ := foldl_addAdmissible (R := R) hF R.vector hR hp []
  have hrange : ∀ ℓ ∈ R.vector.map (fun (a : ℕ) => (a : ℤ)), InRange ℓ := by
    intro ℓ hℓ
    obtain ⟨a, ha, rfl⟩ := List.mem_map.mp hℓ
    exact inRange_accepted hF (hR a ha)
  rw [addClausesNonemptyAdmissibleSet]
  simp only
  rw [h3, List.nil_append, addClause_eq h1 hrange, h2]
  rfl

/-! ## What the clauses say -/

theorem exists_mem_pair {p : ℤ → Prop} {x y : ℤ} : (∃ ℓ ∈ [x, y], p ℓ) ↔ p x ∨ p y := by
  simp

/-- The conditions of the encoding on a single active argument. -/
structure Labelled (F : AF) (R : VectorBitSet) (v : ℕ → Bool) (a : ℕ) : Prop where
  exclusive : v (a + F.numArgs) = true → v a = false
  reason : v (a + F.numArgs) = true → ∃ b ∈ R.vector, F.att b a ∧ v b = true
  attacked : ∀ b ∈ R.vector, F.att b a → v b = true → v (a + F.numArgs) = true
  conflict : ∀ b ∈ R.vector, F.att b a → v a = true → v b = false
  defense : ∀ b ∈ R.vector, F.att b a → a ≠ b → v a = true → v (b + F.numArgs) = true

theorem litValue_rejected {n : ℕ} (ha : 1 ≤ a) : Sat.litValue v (a + n : ℤ) = v (a + n) := by
  have h : (a + n : ℤ) = ((a + n : ℕ) : ℤ) := by push_cast; rfl
  rw [h]
  exact Sat.litValue_natCast (by omega)

theorem litValue_neg_rejected {n : ℕ} : Sat.litValue v (-(a + n : ℤ)) = !v (a + n) := by
  have h : (a + n : ℤ) = ((a + n : ℕ) : ℤ) := by push_cast; rfl
  rw [h]
  exact Sat.litValue_neg_natCast

theorem satisfies_attackerClauses {n : ℕ} (ha : 1 ≤ a) (hb : 1 ≤ b) :
    Sat.Satisfies v (attackerClauses n a b) ↔
      (v b = true → v (a + n) = true) ∧ (v a = true → v b = false) ∧
        (a ≠ b → v a = true → v (b + n) = true) := by
  unfold attackerClauses
  by_cases hab : a = b
  · subst hab
    simp only [ne_eq, not_true_eq_false, if_false, if_true, Sat.satisfies_append,
      Sat.satisfies_cons, Sat.satisfies_nil, List.mem_cons, List.not_mem_nil, or_false,
      exists_eq_or_imp, exists_eq_left, litValue_rejected ha, Sat.litValue_neg_natCast]
    cases v a <;> cases v (a + n) <;> simp
  · simp only [ne_eq, hab, not_false_eq_true, if_true, if_false, Sat.satisfies_append,
      Sat.satisfies_cons, Sat.satisfies_nil, List.mem_cons, List.not_mem_nil, or_false,
      exists_eq_or_imp, exists_eq_left, litValue_rejected ha, litValue_rejected hb,
      Sat.litValue_neg_natCast]
    cases v a <;> cases v b <;> cases v (a + n) <;> cases v (b + n) <;> simp

theorem mem_activeAttackers (hF : F.Coherent) (hR : VectorBitSet.Matches F.numArgs R) :
    b ∈ activeAttackers F R a ↔ b ∈ R.vector ∧ F.att b a := by
  rw [activeAttackers, List.mem_filter, hF.mem_attackers, hR.bit_iff, and_comm]

theorem satisfies_admissibleClauses (hF : F.Coherent) (hR : VectorBitSet.Matches F.numArgs R)
    (ha : a ∈ F.args) :
    Sat.Satisfies v (admissibleClauses F R a) ↔ Labelled F R v a := by
  have hb : ∀ b ∈ activeAttackers F R a, 1 ≤ b := fun b hb =>
    (hF.att_args ((mem_activeAttackers hF hR).mp hb).2).1.1
  have hattackers : Sat.Satisfies v
      ((activeAttackers F R a).flatMap (attackerClauses F.numArgs a)) ↔
      ∀ b ∈ activeAttackers F R a, (v b = true → v (a + F.numArgs) = true) ∧
        (v a = true → v b = false) ∧ (a ≠ b → v a = true → v (b + F.numArgs) = true) := by
    rw [Sat.satisfies_flatMap]
    exact forall₂_congr fun b hmem => satisfies_attackerClauses ha.1 (hb b hmem)
  have hreason : (∃ ℓ ∈ -(a + F.numArgs : ℤ) :: (activeAttackers F R a).map
      (fun (b : ℕ) => (b : ℤ)), Sat.litValue v ℓ = true) ↔
      (v (a + F.numArgs) = true → ∃ b ∈ activeAttackers F R a, v b = true) := by
    simp only [List.mem_cons, exists_eq_or_imp, List.mem_map, exists_exists_and_eq_and,
      litValue_neg_rejected, Bool.not_eq_true']
    have hlit : (∃ b ∈ activeAttackers F R a, Sat.litValue v (b : ℤ) = true) ↔
        ∃ b ∈ activeAttackers F R a, v b = true :=
      exists_congr fun b => and_congr_right fun hmem => by rw [Sat.litValue_natCast (hb b hmem)]
    rw [hlit]
    cases v (a + F.numArgs) <;> simp
  rw [admissibleClauses, Sat.satisfies_append, Sat.satisfies_append, hattackers]
  simp only [Sat.satisfies_cons, Sat.satisfies_nil, and_true, hreason]
  simp only [mem_activeAttackers hF hR, exists_mem_pair, litValue_neg_rejected,
    Sat.litValue_neg_natCast]
  constructor
  · rintro ⟨⟨h1, h2⟩, h3⟩
    refine ⟨fun h => ?_, fun h => ?_, fun b hR hba => (h2 b ⟨hR, hba⟩).1,
      fun b hR hba => (h2 b ⟨hR, hba⟩).2.1, fun b hR hba => (h2 b ⟨hR, hba⟩).2.2⟩
    · rw [h] at h1
      simpa using h1
    · obtain ⟨b, ⟨hbR, hba⟩, hvb⟩ := h3 h
      exact ⟨b, hbR, hba, hvb⟩
  · intro h
    refine ⟨⟨?_, fun b hb => ⟨h.attacked b hb.1 hb.2, h.conflict b hb.1 hb.2,
      h.defense b hb.1 hb.2⟩⟩, fun hrej => ?_⟩
    · by_cases hrej : v (a + F.numArgs) = true
      · exact Or.inr (by rw [h.exclusive hrej]; rfl)
      · exact Or.inl (by simpa using hrej)
    · obtain ⟨b, hbR, hba, hvb⟩ := h.reason hrej
      exact ⟨b, ⟨hbR, hba⟩, hvb⟩

/-- **What the encoding says**: every active argument is labelled consistently, and
some argument is accepted. -/
theorem satisfies_encodingClauses (hF : F.Coherent) (hR : VectorBitSet.Matches F.numArgs R)
    (hrange : ∀ a ∈ R.vector, a ∈ F.args) :
    Sat.Satisfies v (encodingClauses F R) ↔
      (∀ a ∈ R.vector, Labelled F R v a) ∧ ∃ a ∈ R.vector, v a = true := by
  rw [encodingClauses, Sat.satisfies_append, Sat.satisfies_flatMap]
  refine and_congr
    (forall₂_congr fun a ha => satisfies_admissibleClauses hF hR (hrange a ha)) ?_
  simp only [Sat.satisfies_cons, Sat.satisfies_nil, and_true, List.mem_map,
    exists_exists_and_eq_and]
  exact exists_congr fun a => and_congr_right fun ha => by
    rw [Sat.litValue_natCast (hrange a ha).1]

/-! ## Models and admissible sets -/

/-- The active arguments that an assignment accepts. -/
def acceptedArgs (R : VectorBitSet) (v : ℕ → Bool) : Set ℕ := {a ∈ R.args | v a = true}

/-- **Soundness.**  A model accepts a nonempty admissible set. -/
theorem admissible_of_satisfies (hF : F.Coherent) (hR : VectorBitSet.Matches F.numArgs R)
    (hrange : ∀ a ∈ R.vector, a ∈ F.args) (hv : Sat.Satisfies v (encodingClauses F R)) :
    Dung.Admissible F.att R.args (acceptedArgs R v) ∧ (acceptedArgs R v).Nonempty := by
  obtain ⟨hlab, a, ha, hva⟩ := (satisfies_encodingClauses hF hR hrange).mp hv
  refine ⟨⟨fun b hb => hb.1, ?_, ?_⟩, a, ha, hva⟩
  · intro b hb c hc hbc
    have hfalse := (hlab c hc.1).conflict b hb.1 hbc hc.2
    rw [hb.2] at hfalse
    exact Bool.noConfusion hfalse
  · intro b hb c hc hcb
    -- the attacker of an accepted argument is rejected, and a rejection has a reason
    have hne : b ≠ c := by
      rintro rfl
      have hfalse := (hlab b hb.1).conflict b hb.1 hcb hb.2
      rw [hb.2] at hfalse
      exact Bool.noConfusion hfalse
    obtain ⟨e, he, hec, hve⟩ := (hlab c hc).reason ((hlab b hb.1).defense c hc hcb hne hb.2)
    exact ⟨e, ⟨he, hve⟩, hec⟩

open Classical in
/-- The assignment of a set: its members are accepted, what it attacks is
rejected. -/
noncomputable def modelOf (F : AF) (S : Set ℕ) (x : ℕ) : Bool :=
  if x ≤ F.numArgs then decide (x ∈ S) else decide (Dung.Attacks F.att S (x - F.numArgs))

variable {S : Set ℕ}

theorem modelOf_accepted (ha : a ∈ F.args) : modelOf F S a = true ↔ a ∈ S := by
  classical
  rw [modelOf, if_pos ha.2, decide_eq_true_iff]

theorem modelOf_rejected (ha : a ∈ F.args) :
    modelOf F S (a + F.numArgs) = true ↔ Dung.Attacks F.att S a := by
  classical
  have h1 := ha.1
  rw [modelOf, if_neg (by omega), decide_eq_true_iff, Nat.add_sub_cancel]

/-- **Completeness.**  Every nonempty admissible set is accepted by a model. -/
theorem satisfies_of_admissible (hF : F.Coherent) (hR : VectorBitSet.Matches F.numArgs R)
    (hrange : ∀ a ∈ R.vector, a ∈ F.args) (hS : Dung.Admissible F.att R.args S)
    (hne : S.Nonempty) : Sat.Satisfies (modelOf F S) (encodingClauses F R) := by
  rw [satisfies_encodingClauses hF hR hrange]
  refine ⟨fun a ha => ?_, ?_⟩
  · have harg := hrange a ha
    refine ⟨fun hrej => ?_, fun hrej => ?_, fun b hb hba hvb => ?_, fun b hb hba hva => ?_,
      fun b hb hba _ hva => ?_⟩
    · rw [← Bool.not_eq_true, modelOf_accepted harg]
      exact hS.not_mem_of_attacks ((modelOf_rejected harg).mp hrej)
    · obtain ⟨b, hb, hba⟩ := (modelOf_rejected harg).mp hrej
      exact ⟨b, hS.subset hb, hba, (modelOf_accepted (hrange b (hS.subset hb))).mpr hb⟩
    · exact (modelOf_rejected harg).mpr ⟨b, (modelOf_accepted (hrange b hb)).mp hvb, hba⟩
    · rw [← Bool.not_eq_true, modelOf_accepted (hrange b hb)]
      exact fun hbS => hS.conflictFree b hbS a ((modelOf_accepted harg).mp hva) hba
    · exact (modelOf_rejected (hrange b hb)).mpr
        (hS.defends a ((modelOf_accepted harg).mp hva) b hb hba)
  · obtain ⟨a, ha⟩ := hne
    exact ⟨a, hS.subset ha, (modelOf_accepted (hrange a (hS.subset ha))).mpr ha⟩

theorem acceptedArgs_modelOf (hrange : ∀ a ∈ R.vector, a ∈ F.args) (hS : S ⊆ R.args) :
    acceptedArgs R (modelOf F S) = S := by
  ext a
  constructor
  · rintro ⟨ha, hva⟩
    exact (modelOf_accepted (hrange a ha)).mp hva
  · intro ha
    exact ⟨hS ha, (modelOf_accepted (hrange a (hS ha))).mpr ha⟩

/-! ## The complement clause -/

/-- The clause that negates every accepted argument of a list. -/
def complementClause (accepted : List ℕ) : List ℤ := accepted.map fun (a : ℕ) => -(a : ℤ)

theorem foldl_append_map_if {β : Type*} (p : ℕ → Bool) (f : ℕ → β) (l : List ℕ) (out : List β) :
    l.foldl (fun out a => if p a = true then out ++ [f a] else out) out =
      out ++ (l.filter p).map f := by
  induction l generalizing out with
  | nil => simp
  | cons a l ih =>
    rw [List.foldl_cons, ih, List.filter_cons]
    split
    · rw [List.append_assoc, List.map_cons, List.singleton_append]
    · rfl

/-- The complement clause negates exactly the decoded set. -/
theorem addComplementClause_eq (hF : F.Coherent) (hrange : ∀ a ∈ R.vector, a ∈ F.args)
    (hp : s.cadical.pending = []) :
    addComplementClause s R = s.withClauses [complementClause (getSetFromSolver s R)] := by
  have hclause : R.vector.foldl (fun (clause : List ℤ) (a : ℕ) =>
      if s.checkVarModel (a : ℤ) = true then clause ++ [-1 * (a : ℤ)] else clause) [] =
      complementClause (getSetFromSolver s R) := by
    rw [foldl_append_map_if (fun a => s.checkVarModel (a : ℤ)) (fun a => -1 * (a : ℤ)),
      getSetFromSolver, foldl_append_if, List.nil_append, List.nil_append, complementClause]
    simp
  rw [addComplementClause, hclause]
  refine addClause_eq hp fun ℓ hℓ => ?_
  obtain ⟨a, ha, rfl⟩ := List.mem_map.mp hℓ
  exact inRange_neg_accepted hF (hrange a (mem_of_mem_getSetFromSolver ha))

/-- **The complement clause of a set excludes the models that accept all of it.** -/
theorem satisfies_complementClause {l : List ℕ} :
    Sat.Satisfies v [complementClause l] ↔ ∃ a ∈ l, v a = false := by
  simp only [Sat.satisfies_cons, Sat.satisfies_nil, and_true, complementClause, List.mem_map,
    exists_exists_and_eq_and, Sat.litValue_neg_natCast, Bool.not_eq_true']

end AFAnalyzer
