import AFAnalyzer.Dung.Decidable
import AFAnalyzer.Solver.Solve

/-!
# Several queries on one framework object

`distance_to_query` is zeroed by `initialize` and by nothing else.  The traversal of
`calculate_cone_influence` takes a positive distance as the mark of a visited argument,
so an argument that an earlier call has marked is skipped by a later one, together with
everything that reaches the query only through it.

The arguments marked when a call starts are computed from the earlier queries by
`AF.marksAfter`.  `solveEach_iff` reduces a property of all calls of a sequence to one of
the marked sets, and `queries_asFresh_iff` reads off when the calls do as they would on a
fresh copy.
-/

namespace AFAnalyzer

/-! ## The calls -/

/-- The calls of `solve` for the queries, one after the other on one object and each with
any list as its `proof_extension`: all return under every schedule, and `post` holds of
the framework that a call finds, of its query and of its answer. -/
def SolveEach (post : AF → ℕ → Bool → Prop) : AF → List ℕ → Prop
  | _, [] => True
  | F, q :: queries => ∀ proof, Solve F q proof fun F' answer _ =>
      post F q answer ∧ SolveEach post F' queries

/-- The answer is that of the same call on `fresh`. -/
def FreshAnswer (fresh : AF) (q : ℕ) (answer : Bool) : Prop :=
  ∀ proof, Solve fresh q proof fun _ freshAnswer _ => answer = freshAnswer

/-- The two tests that come before the cone do not decide the query. -/
def AF.ComputesCone (F : AF) (q : ℕ) : Prop := ¬ F.att q q ∧ ∃ b, F.att b q

/-- The cone of influence that `calculate_cone_influence` returns. -/
def AF.coneArgs (F : AF) (q : ℕ) : Option (Set ℕ) :=
  (calculateConeInfluence F q).map fun cone => cone.2.args

/-- If the call computes a cone, it is that of the same call on `fresh`. -/
def FreshCone (fresh F : AF) (q : ℕ) : Prop := F.ComputesCone q → F.coneArgs q = fresh.coneArgs q

/-! ## The marks -/

/-- The arguments with an attack path to the query on which no argument, the query apart,
is marked. -/
def AF.coneAround (F : AF) (marked : Set ℕ) (q : ℕ) : Set ℕ :=
  {a | Relation.ReflTransGen (fun x y => F.att y x ∧ y ∉ marked ∧ y ≠ q) q a}

/-- The arguments marked after a call: a computed cone marks its arguments, and the query
loses its mark. -/
def AF.marksAfter (F : AF) (marked : Set ℕ) (q : ℕ) : Set ℕ :=
  {a | a ∈ marked ∧ ¬ F.ComputesCone q ∨
    F.ComputesCone q ∧ a ≠ q ∧ (a ∈ marked ∨ a ∈ F.coneAround marked q)}

/-- The condition holds of every query together with the arguments marked before it. -/
def AF.AtEachQuery (F : AF) (cond : Set ℕ → ℕ → Prop) : Set ℕ → List ℕ → Prop
  | _, [] => True
  | marked, q :: queries => cond marked q ∧ F.AtEachQuery cond (F.marksAfter marked q) queries

/-- The arguments that the framework object has marked. -/
def AF.marked (F : AF) : Set ℕ := {a | 0 < F.distanceAt a}

variable {F F' : AF} {q a : ℕ} {M : Set ℕ} {out : VectorBitSet} {result : PreProcResult}

theorem coneSet_eq_coneAround : coneSet F q F.distanceToQuery = F.coneAround F.marked q := by
  have hstep : ConeStep F q F.distanceToQuery =
      fun x y => F.att y x ∧ y ∉ F.marked ∧ y ≠ q := by
    funext x y
    rw [ConeStep]
    show (_ ∧ F.distanceAt y = 0 ∧ _) = (_ ∧ ¬ 0 < F.distanceAt y ∧ _)
    rw [Nat.pos_iff_ne_zero, not_not]
  rw [coneSet, hstep]
  rfl

theorem coneAround_subset_cone : F.coneAround M q ⊆ F.cone q := by
  intro a ha
  induction ha with
  | refl => exact Relation.ReflTransGen.refl
  | tail _ hstep ih => exact Relation.ReflTransGen.head hstep.1 ih

/-- The traversal finds the whole cone exactly when it contains no mark. -/
theorem coneAround_eq_cone_iff :
    F.coneAround M q = F.cone q ↔ ∀ a ∈ M, a ∈ F.cone q → a = q := by
  constructor
  · intro heq a hM ha
    rw [← heq] at ha
    rcases Relation.ReflTransGen.cases_tail ha with h | ⟨b, -, hb⟩
    · exact h
    · exact absurd hM hb.2.1
  · intro hfree
    refine Set.Subset.antisymm coneAround_subset_cone fun a ha => ?_
    induction ha using Relation.ReflTransGen.head_induction_on with
    | refl => exact Relation.ReflTransGen.refl
    | @head b c hbc hcq ih =>
      by_cases hb : b = q
      · rw [hb]
        exact Relation.ReflTransGen.refl
      · have hmark : b ∉ M := fun hM => hb (hfree b hM (.head hbc hcq))
        exact Relation.ReflTransGen.tail ih ⟨hbc, hmark, hb⟩

/-- What a call does to the marks. -/
theorem ProcessResult.marked_eq (h : ProcessResult F q F' result out) :
    F'.marked = F.marksAfter F.marked q := by
  cases h with
  | selfAttack self =>
    have hno : ¬ F.ComputesCone q := fun hc => hc.1 self
    ext a
    simp [AF.marksAfter, hno]
  | unattacked hnone =>
    have hno : ¬ F.ComputesCone q := fun ⟨_, b, hb⟩ => hnone b hb
    ext a
    simp [AF.marksAfter, hno]
  | cone distances active notSelf attacked cone grounded =>
    have hyes : F.ComputesCone q := ⟨notSelf, attacked⟩
    ext a
    have hmem : a ∈ active.vector ↔ a ∈ F.coneAround F.marked q := by
      rw [cone.mem_iff, coneSet_eq_coneAround]
    simp only [AF.marksAfter, Set.mem_ofPred_eq, hyes, not_true, and_false, false_or, true_and,
      ← hmem]
    show 0 < distances.getD a 0 ↔ a ≠ q ∧ (0 < F.distanceAt a ∨ a ∈ active.vector)
    by_cases haq : a = q
    · rw [haq, cone.query_zero]
      simp
    · by_cases ha : a ∈ active.vector
      · exact iff_of_true (cone.positive a ha haq) ⟨haq, Or.inr ha⟩
      · rw [cone.outside a ha]
        simp [ha, haq]

/-! ## One call and all calls -/

/-- The same framework with distances that earlier calls have left. -/
def AF.UsedCopy (fresh F : AF) : Prop :=
  ∃ d, d.length = fresh.numArgs + 1 ∧ F = { fresh with distanceToQuery := d }

/-- **What a call does**, whatever earlier calls have marked. -/
theorem solve_marked (hF : F.Coherent) (hq : q ∈ F.args) (proof : List ℕ) :
    Solve F q proof fun F' answer _ => F.UsedCopy F' ∧ F'.marked = F.marksAfter F.marked q ∧
      (answer = true ↔ Dung.SkepticallyAccepted F.att (F.coneAround F.marked q) q) := by
  have hanswer := solve_coneSet hF hq proof
  rw [coneSet_eq_coneAround] at hanswer
  have hframework : Solve F q proof fun F' _ _ =>
      F.UsedCopy F' ∧ F'.marked = F.marksAfter F.marked q := by
    obtain ⟨F', result, out, heq, hsolve⟩ := hanswer
    have hres := processResult_of_eq hF hq heq
    have hend := And.intro (hres.framework hF) hres.marked_eq
    refine ⟨F', result, out, heq, ?_⟩
    cases result with
    | accepted => exact hend
    | rejected => exact hend
    | unknown => exact hsolve.mono fun _ _ _ hstop => ⟨hstop.1, fun _ _ => hend⟩
  exact (hframework.and hanswer).mono fun F' answer _ hend => ⟨hend.1.1, hend.1.2, hend.2⟩

/-- **From calls to marked sets.**  If for every single call the property is the condition
on the arguments marked before it, the calls of a sequence have the property if and only
if the condition holds at each of them. -/
theorem solveEach_iff {fresh : AF} (hfresh : fresh.Coherent) {post : AF → ℕ → Bool → Prop}
    {cond : Set ℕ → ℕ → Prop}
    (hpost : ∀ F q answer, fresh.UsedCopy F → q ∈ fresh.args →
      (answer = true ↔ Dung.SkepticallyAccepted fresh.att (fresh.coneAround F.marked q) q) →
        (post F q answer ↔ cond F.marked q))
    {queries : List ℕ} (hqueries : ∀ q ∈ queries, q ∈ fresh.args) (hF : fresh.UsedCopy F) :
    SolveEach post F queries ↔ fresh.AtEachQuery cond F.marked queries := by
  induction queries generalizing F with
  | nil => exact iff_of_true trivial trivial
  | cons q queries ih =>
    obtain ⟨hq, hrest⟩ := List.forall_mem_cons.mp hqueries
    obtain ⟨d, hd, rfl⟩ := hF
    let F : AF := { fresh with distanceToQuery := d }
    have hmarked := solve_marked (F := F) (hfresh.withDistance hd) hq
    have hcall : ∀ proof, (Solve F q proof fun F' answer _ =>
        post F q answer ∧ SolveEach post F' queries) ↔
          Solve F q proof fun _ _ _ =>
            cond F.marked q ∧ fresh.AtEachQuery cond (fresh.marksAfter F.marked q) queries := by
      intro proof
      refine Solve.congr (hmarked proof) fun F' answer _ ⟨⟨d', hd', hF'⟩, hmarks, hanswer⟩ => ?_
      have hnext := ih hrest (F := F') ⟨d', hd', hF'⟩
      rw [hpost F q answer ⟨d, hd, rfl⟩ hq hanswer, hnext, hmarks]
      rfl
    constructor
    · intro h
      obtain ⟨_, _, _, hend⟩ := ((hcall []).mp (h [])).exists
      exact hend
    · intro h proof
      exact (hcall proof).mpr ((hmarked proof).mono fun _ _ _ _ => h)

/-! ## As on a fresh copy -/

variable {W : WellFormed} {answer : Bool}

theorem WellFormed.marked_eq_empty : W.af.marked = ∅ := by
  refine Set.eq_empty_of_forall_notMem fun a ha => ?_
  have hpos : 0 < W.af.distanceToQuery.getD a 0 := ha
  rw [W.distance_fresh] at hpos
  exact absurd hpos (Nat.lt_irrefl 0)

theorem WellFormed.usedCopy (W : WellFormed) : W.af.UsedCopy W.af :=
  ⟨W.af.distanceToQuery, W.coherent.length_distance, rfl⟩

/-- The query has the same verdict in its cone and in the whole framework. -/
theorem WellFormed.skepticallyAccepted_cone (hq : q ∈ W.af.args) :
    Dung.SkepticallyAccepted W.af.att (W.af.cone q) q ↔
      Dung.SkepticallyAccepted W.af.att W.af.args q :=
  ((W.attackClosed_cone hq).skepticallyAccepted_iff Relation.ReflTransGen.refl).symm

theorem WellFormed.coneAround_marked (W : WellFormed) (q : ℕ) :
    W.af.coneAround W.af.marked q = W.af.cone q := by
  rw [coneAround_eq_cone_iff, W.marked_eq_empty]
  exact fun a ha => absurd ha (Set.notMem_empty a)

theorem freshAnswer_iff (hq : q ∈ W.af.args) :
    FreshAnswer W.af q answer ↔
      (answer = true ↔ Dung.SkepticallyAccepted W.af.att W.af.args q) := by
  have hfresh := solve_marked W.coherent hq
  rw [W.coneAround_marked, WellFormed.skepticallyAccepted_cone hq] at hfresh
  constructor
  · intro h
    obtain ⟨F', fresh, output, hsame, -, -, hverdict⟩ := ((h []).and (hfresh [])).exists
    rw [hsame]
    exact hverdict
  · intro h proof
    exact (hfresh proof).mono fun F' fresh output hend => by
      rw [Bool.eq_iff_iff, h, hend.2.2]

theorem coneArgs_eq (hF : F.Coherent) (hq : q ∈ F.args) :
    F.coneArgs q = some (F.coneAround F.marked q) := by
  obtain ⟨distances, active, heq, hcone⟩ := calculateConeInfluence_spec hF hq
  rw [AF.coneArgs, heq, Option.map_some, hcone.args_eq, coneSet_eq_coneAround]

/-- The cone is the fresh one exactly when no mark lies in it. -/
theorem freshCone_iff (hq : q ∈ W.af.args) (hF : W.af.UsedCopy F) :
    FreshCone W.af F q ↔
      (W.af.ComputesCone q → ∀ a ∈ F.marked, a ∈ W.af.cone q → a = q) := by
  obtain ⟨d, hd, rfl⟩ := hF
  rw [FreshCone, coneArgs_eq (W.coherent.withDistance hd) hq, coneArgs_eq W.coherent hq,
    W.coneAround_marked, Option.some_inj, ← coneAround_eq_cone_iff]
  rfl

/-- A query that the two early tests decide has one verdict, however much of the framework
a cone would have held. -/
theorem skepticallyAccepted_of_not_computesCone {A B : Set ℕ} (hno : ¬ F.ComputesCone q)
    (hA : q ∈ A) (hB : q ∈ B) :
    Dung.SkepticallyAccepted F.att A q ↔ Dung.SkepticallyAccepted F.att B q := by
  by_cases hself : F.att q q
  · have hrejected : ∀ C, ¬ Dung.SkepticallyAccepted F.att C q := by
      intro C hacc
      obtain ⟨E, hE⟩ := Dung.exists_preferred F.att C
      exact hE.admissible.conflictFree q (hacc E hE) q (hacc E hE) hself
    exact iff_of_false (hrejected A) (hrejected B)
  · have hnone : ∀ b, ¬ F.att b q := fun b hb => hno ⟨hself, b, hb⟩
    have haccepted : ∀ {C : Set ℕ}, q ∈ C → Dung.SkepticallyAccepted F.att C q := fun hC =>
      Dung.skepticallyAccepted_of_mem_grounded
        (Dung.mem_grounded_of_defends hC fun b _ hb => absurd hb (hnone b))
    exact iff_of_true (haccepted hA) (haccepted hB)

/-- The answers of all calls are those of fresh copies exactly when the marks leave every
query its verdict. -/
theorem answers_asFresh_iff (W : WellFormed) {queries : List ℕ}
    (hqueries : ∀ q ∈ queries, q ∈ W.af.args) :
    SolveEach (fun _ q answer => FreshAnswer W.af q answer) W.af queries ↔
      W.af.AtEachQuery (fun marked q =>
        (Dung.SkepticallyAccepted W.af.att (W.af.coneAround marked q) q ↔
          Dung.SkepticallyAccepted W.af.att W.af.args q)) ∅ queries := by
  rw [← W.marked_eq_empty]
  refine solveEach_iff W.coherent (fun F q answer _ hq hanswer => ?_) hqueries W.usedCopy
  rw [freshAnswer_iff hq, hanswer]

/-- Cones and answers of all calls are those of fresh copies exactly when no call finds a
mark in its cone. -/
theorem cones_asFresh_iff (W : WellFormed) {queries : List ℕ}
    (hqueries : ∀ q ∈ queries, q ∈ W.af.args) :
    SolveEach (fun F q answer => FreshCone W.af F q ∧ FreshAnswer W.af q answer) W.af queries ↔
      W.af.AtEachQuery (fun marked q =>
        W.af.ComputesCone q → ∀ a ∈ marked, a ∈ W.af.cone q → a = q) ∅ queries := by
  rw [← W.marked_eq_empty]
  refine solveEach_iff W.coherent (fun F q answer hF hq hanswer => ?_) hqueries W.usedCopy
  rw [freshCone_iff hq hF, freshAnswer_iff hq, hanswer, and_iff_left_iff_imp]
  intro hfree
  by_cases hcone : W.af.ComputesCone q
  · rw [coneAround_eq_cone_iff.mpr (hfree hcone)]
    exact WellFormed.skepticallyAccepted_cone hq
  · exact skepticallyAccepted_of_not_computesCone hcone Relation.ReflTransGen.refl hq

/-- **When earlier queries do no harm.**  For every sequence of queries on one framework
object, all calls compute the cone and give the answer of a fresh copy if and only if no
call finds a mark of an earlier one in its cone.  The answers alone are those of fresh
copies if and only if every query has, among the arguments with an attack path around the
marks, its verdict in the framework. -/
theorem queries_asFresh_iff (W : WellFormed) {queries : List ℕ}
    (hqueries : ∀ q ∈ queries, 1 ≤ q ∧ q ≤ W.n) :
    (SolveEach (fun F q answer => FreshCone W.af F q ∧ FreshAnswer W.af q answer) W.af queries ↔
      W.af.AtEachQuery (fun marked q =>
        W.af.ComputesCone q → ∀ a ∈ marked, a ∈ W.af.cone q → a = q) ∅ queries) ∧
    (SolveEach (fun _ q answer => FreshAnswer W.af q answer) W.af queries ↔
      W.af.AtEachQuery (fun marked q =>
        (Dung.SkepticallyAccepted W.af.att (W.af.coneAround marked q) q ↔
          Dung.SkepticallyAccepted W.af.att W.af.args q)) ∅ queries) := by
  have hargs : ∀ q ∈ queries, q ∈ W.af.args := fun q hq =>
    WellFormed.mem_args (hqueries q hq).1 (hqueries q hq).2
  exact ⟨cones_asFresh_iff W hargs, answers_asFresh_iff W hargs⟩

/-- The framework `3 → 2 → 1`. -/
def chainFramework : WellFormed where
  n := 3
  calls := [(2, 1), (3, 2)]
  order := [(2, 1), (3, 2)]
  bound := by decide
  inRange := by decide
  iteration := iterationOrder_self (by decide)

theorem queries_asFresh_iff_chain :
    (SolveEach (fun F q answer => FreshCone chainFramework.af F q ∧
        FreshAnswer chainFramework.af q answer) chainFramework.af [1, 2] ↔
      chainFramework.af.AtEachQuery (fun marked q => chainFramework.af.ComputesCone q →
        ∀ a ∈ marked, a ∈ chainFramework.af.cone q → a = q) ∅ [1, 2]) ∧
    (SolveEach (fun _ q answer => FreshAnswer chainFramework.af q answer)
        chainFramework.af [1, 2] ↔
      chainFramework.af.AtEachQuery (fun marked q =>
        (Dung.SkepticallyAccepted chainFramework.af.att
            (chainFramework.af.coneAround marked q) q ↔
          Dung.SkepticallyAccepted chainFramework.af.att chainFramework.af.args q)) ∅ [1, 2]) :=
  queries_asFresh_iff chainFramework (by decide)

/-- In `chainFramework` the query 1 marks 3, so that the query 2, which 3 defeats, is
answered as if it were unattacked. -/
theorem not_answers_asFresh_chain :
    ¬ SolveEach (fun _ q answer => FreshAnswer chainFramework.af q answer)
      chainFramework.af [1, 2] := by
  rw [answers_asFresh_iff chainFramework (by decide)]
  rintro ⟨-, hsecond, -⟩
  have hcone1 : chainFramework.af.ComputesCone 1 := ⟨by decide, 2, by decide⟩
  have hreach2 : 2 ∈ chainFramework.af.coneAround ∅ 1 :=
    .single ⟨by decide, Set.notMem_empty 2, by decide⟩
  have hreach3 : 3 ∈ chainFramework.af.coneAround ∅ 1 :=
    .tail hreach2 ⟨by decide, Set.notMem_empty 3, by decide⟩
  have hmarked : 3 ∈ chainFramework.af.marksAfter ∅ 1 :=
    Or.inr ⟨hcone1, by decide, Or.inr hreach3⟩
  have hattackers : ∀ p ∈ chainFramework.af.attacks, p.2 = 2 → p.1 = 3 := by decide
  have hcone2 : chainFramework.af.coneAround (chainFramework.af.marksAfter ∅ 1) 2 =
      Dung.members [2] := by
    refine Set.Subset.antisymm (fun a ha => ?_) fun a ha => ?_
    · induction ha with
      | refl => exact List.mem_singleton_self 2
      | @tail b c _ hstep ih =>
        have hc : c = 3 := hattackers (c, b) hstep.1 (List.mem_singleton.mp ih)
        rw [hc] at hstep
        exact absurd hmarked hstep.2.1
    · rw [List.mem_singleton.mp ha]
      exact Relation.ReflTransGen.refl
  have hargs : chainFramework.af.args = Dung.members [1, 2, 3] := by
    ext a
    show 1 ≤ a ∧ a ≤ 3 ↔ a ∈ [1, 2, 3]
    simp only [List.mem_cons, List.not_mem_nil, or_false]
    omega
  rw [hcone2, hargs] at hsecond
  exact absurd hsecond (by decide)

end AFAnalyzer
