import AFAnalyzer.Dung.Correspondence
import AFAnalyzer.Solver.Certificate

/-!
# What preprocessing preserves

`process_unknown_iff` says that an undecided query keeps its verdict.  More is true, and
anything else that were computed from `out_reduct` could rely on it:

* `process_preferred`: no preferred extension is lost and none is invented.  Cutting a
  preferred extension down to `out_reduct` gives a preferred set there, each one comes up in
  this way, and on the cone of the query an extension is determined by what it has in
  `out_reduct`.
* `process_reduced`: the reduction is complete.  Every argument left is attacked by one that
  is left, and reducing again changes nothing.
* `solve_local`: the answer depends on the cone only, and not on how its arguments are
  numbered.  Changes to a framework that do not touch the attacks on arguments of the cone do
  not change it.
-/

namespace AFAnalyzer

variable {F F' : AF} {q : ℕ} {out out₀ : VectorBitSet}

/-! ## Preferred extensions -/

/-- The preferred extensions of the framework and those of what is left to the search. -/
structure PreservesPreferred (F : AF) (q : ℕ) (out : VectorBitSet) : Prop where
  restrict : ∀ P, Dung.Preferred F.att F.args P → Dung.Preferred F.att out.args (P ∩ out.args)
  extend : ∀ T, Dung.Preferred F.att out.args T →
    ∃ P, Dung.Preferred F.att F.args P ∧ P ∩ out.args = T
  cone_eq : ∀ P, Dung.Preferred F.att F.args P →
    P ∩ F.cone q = F.groundedCone q ∪ (P ∩ out.args)
  bijOn : Set.BijOn (· ∩ out.args) {P | Dung.Preferred F.att (F.cone q) P}
    {T | Dung.Preferred F.att out.args T}

theorem WellFormed.grounds_groundedCone (W : WellFormed) (hq : q ∈ W.af.args) :
    Dung.Grounds W.af.att (W.af.cone q) (W.af.groundedCone q) := by
  rw [W.groundedCone_eq hq]
  exact ⟨Dung.grounded_admissible, subset_rfl⟩

/-- **Preprocessing preserves the preferred extensions.**  When it leaves a query undecided,
the preferred extensions of the framework, cut down to `out_reduct`, are exactly the preferred
sets of `out_reduct`; on the cone of the query an extension has, besides, the grounded
extension and nothing else; and for the sub-framework of the cone the correspondence is one to
one. -/
theorem process_preferred (W : WellFormed) {q : ℕ} (h1 : 1 ≤ q) (hn : q ≤ W.n)
    (h : process W.af q out₀ = some (F', .unknown, out)) : PreservesPreferred W.af q out := by
  have hq : q ∈ W.af.args := WellFormed.mem_args h1 hn
  have hclosed := W.attackClosed_cone hq
  have hground := W.grounds_groundedCone hq
  have hout := W.args_eq_reduct hq (processResult_of_eq W.coherent hq h)
  have hbij := Dung.bijOn_preferred_reduct hground.admissible fun E hE =>
    hground.subset_preferred hE
  rw [← hout] at hbij
  have hsub : out.args ⊆ W.af.cone q := by
    rw [hout]
    exact Dung.reduct_subset
  have hcut : ∀ P : Set ℕ, P ∩ out.args = P ∩ W.af.cone q ∩ out.args := by
    intro P
    rw [Set.inter_assoc, Set.inter_eq_self_of_subset_right hsub]
  refine ⟨fun P hP => ?_, fun T hT => ?_, fun P hP => ?_, hbij⟩
  · rw [hcut]
    exact hbij.mapsTo (hclosed.preferred_inter hP)
  · obtain ⟨E, hE, rfl⟩ := hbij.surjOn hT
    obtain ⟨P, hP, rfl⟩ := hclosed.exists_preferred_inter_eq hE
    exact ⟨P, hP, hcut P⟩
  · have hE := hclosed.preferred_inter hP
    have hle := hground.subset_preferred hE
    rw [hcut, hout, hE.admissible.inter_reduct hle, Set.union_sdiff_cancel hle]

theorem process_preferred_pruned : PreservesPreferred prunedFramework.af 1 prunedOut :=
  process_preferred prunedFramework (by decide) (by decide) process_pruned

/-! ## Nothing is left to reduce -/

/-- On a set in which every argument is attacked the worklist stays empty. -/
theorem reduceByGrounded_eq_of_attacked (hF : F.Coherent)
    (hA : VectorBitSet.Matches F.numArgs out) (hatt : ∀ a ∈ out.vector, ∃ b, F.att b a) (q : ℕ) :
    reduceByGrounded F out q = some (.unknown, out) := by
  have hidx : ∀ a ∈ out.vector, a < (List.replicate (F.numArgs + 1) 0).length := by
    intro a ha
    rw [List.length_replicate]
    exact hA.lt_of_mem ha
  obtain ⟨hout, -, hun, -⟩ := foldl_countAttackers (F := F) out.vector
    ⟨[], List.replicate (F.numArgs + 1) 0, out⟩ hA.nodup hidx
  have hnone : out.vector.filter (fun a => (F.attackersAt a).vector.isEmpty) = [] := by
    rw [List.filter_eq_nil_iff]
    intro a ha hempty
    obtain ⟨b, hb⟩ := hatt a ha
    exact hF.attackers_empty_iff.mp (List.isEmpty_iff.mp hempty) b hb
  rw [hnone, List.append_nil] at hun
  unfold reduceByGrounded groundedLoop
  simp only [groundedStart, hun, hout]

/-- Preprocessing has nothing more to do. -/
structure Reduced (F F' : AF) (out : VectorBitSet) : Prop where
  attacked : ∀ a ∈ out.vector, ∃ b ∈ out.vector, F.att b a
  grounded : Dung.grounded F.att out.args = ∅
  again : ∀ q, reduceByGrounded F' out q = some (.unknown, out)

/-- **The reduction is complete.**  When preprocessing leaves a query undecided, every argument
of `out_reduct` is attacked from within it, so that its grounded extension is empty, and
`reduce_by_grounded` on `out_reduct` returns it as it is, whatever the query. -/
theorem process_reduced (W : WellFormed) {q : ℕ} (h1 : 1 ≤ q) (hn : q ≤ W.n)
    (h : process W.af q out₀ = some (F', .unknown, out)) : Reduced W.af F' out := by
  have hq : q ∈ W.af.args := WellFormed.mem_args h1 hn
  have hres := processResult_of_eq W.coherent hq h
  have hout := W.args_eq_reduct hq hres
  have hgrounded := W.groundedCone_eq hq
  have hattacked : ∀ a ∈ out.args, ∃ b ∈ out.args, W.af.att b a := by
    intro a ha
    rw [hout] at ha ⊢
    by_contra hnone
    push Not at hnone
    -- the grounded set would defend `a`
    refine ha.2.1 ?_
    rw [hgrounded]
    refine Dung.mem_grounded_of_defends ha.1 fun b hb hba => ?_
    rw [← hgrounded]
    by_contra hspared
    have hbG : b ∈ W.af.groundedCone q := by
      by_contra hbG
      exact hnone b ⟨hb, hbG, hspared⟩ hba
    exact ha.2.2 ⟨b, hbG, hba⟩
  refine ⟨hattacked, Dung.grounded_eq_empty hattacked, fun query => ?_⟩
  have hmatches : VectorBitSet.Matches F'.numArgs out := by
    obtain ⟨d, -, rfl⟩ := hres.framework W.coherent
    exact (hres.undecided W.coherent hq).agrees
  refine reduceByGrounded_eq_of_attacked (hres.coherent W.coherent) hmatches (fun a ha => ?_) query
  obtain ⟨b, -, hb⟩ := hattacked a ha
  rw [hres.att_eq W.coherent]
  exact ⟨b, hb⟩

theorem process_reduced_pruned : Reduced prunedFramework.af prunedSearched prunedOut :=
  process_reduced prunedFramework (by decide) (by decide) process_pruned

/-! ## Locality -/

/-- A map between the arguments of two frameworks under which the arguments of a cone keep
their attackers. -/
structure KeepsCone (f : ℕ → ℕ) (F₁ F₂ : AF) (q : ℕ) : Prop where
  injOn : Set.InjOn f (F₁.cone q)
  attackers : ∀ b ∈ F₁.cone q, ∀ c, F₂.att c (f b) ↔ ∃ a, F₁.att a b ∧ f a = c

/-- It maps the cone onto the cone. -/
theorem KeepsCone.cone_eq {F₁ F₂ : AF} {f : ℕ → ℕ} (h : KeepsCone f F₁ F₂ q) :
    F₂.cone (f q) = f '' F₁.cone q := by
  ext c
  constructor
  · intro hc
    induction hc using Relation.ReflTransGen.head_induction_on with
    | refl => exact ⟨q, Relation.ReflTransGen.refl, rfl⟩
    | head hcd _ ih =>
      obtain ⟨b, hb, rfl⟩ := ih
      obtain ⟨a, hab, rfl⟩ := (h.attackers b hb _).mp hcd
      exact ⟨a, Relation.ReflTransGen.head hab hb, rfl⟩
  · rintro ⟨a, ha, rfl⟩
    induction ha using Relation.ReflTransGen.head_induction_on with
    | refl => exact Relation.ReflTransGen.refl
    | head hab hbq ih =>
      exact Relation.ReflTransGen.head ((h.attackers _ hbq _).mpr ⟨_, hab, rfl⟩) ih

theorem KeepsCone.renames {F₁ F₂ : AF} {f : ℕ → ℕ} (h : KeepsCone f F₁ F₂ q) :
    Dung.Renames f F₁.att F₂.att (F₁.cone q) where
  injOn := h.injOn
  attacks := by
    intro a ha b hb
    rw [h.attackers b hb]
    refine ⟨fun hab => ⟨a, hab, rfl⟩, fun ⟨a', hab, heq⟩ => ?_⟩
    -- an attacker of an argument of the cone lies in the cone
    rwa [← h.injOn (Relation.ReflTransGen.head hab hb) ha heq]

/-- The answer of a call is the verdict on the cone of the query. -/
theorem WellFormed.solve_cone (W : WellFormed) (hq : q ∈ W.af.args) (proof : List ℕ) :
    Solve W.af q proof fun _ answer _ =>
      (answer = true ↔ Dung.SkepticallyAccepted W.af.att (W.af.cone q) q) := by
  have hsolve := solve_coneSet W.coherent hq proof
  rwa [W.coneSet_eq] at hsolve

/-- **The answer is local.**  Let the arguments of the cone of a query be renamed in another
framework, so that they keep their attackers.  Then both calls give the same answer, however
many arguments the frameworks have besides, in whatever order their attacks were added and
visited, and under all schedules in which each task sees the argument and the flag of its
creator. -/
theorem solve_local (W₁ W₂ : WellFormed) {q : ℕ} {f : ℕ → ℕ} (h1 : 1 ≤ q) (hn₁ : q ≤ W₁.n)
    (hf1 : 1 ≤ f q) (hn₂ : f q ≤ W₂.n) (hcone : KeepsCone f W₁.af W₂.af q)
    (proof₁ proof₂ : List ℕ) :
    ∃ verdict, Solve W₁.af q proof₁ (fun _ answer _ => answer = verdict) ∧
      Solve W₂.af (f q) proof₂ fun _ answer _ => answer = verdict := by
  classical
  have hverdict := hcone.renames.skepticallyAccepted_iff Relation.ReflTransGen.refl
  rw [← hcone.cone_eq] at hverdict
  refine ⟨decide (Dung.SkepticallyAccepted W₁.af.att (W₁.af.cone q) q), ?_, ?_⟩
  · refine (W₁.solve_cone (WellFormed.mem_args h1 hn₁) proof₁).mono fun _ answer _ hanswer => ?_
    rw [Bool.eq_iff_iff, decide_eq_true_eq]
    exact hanswer
  · refine (W₂.solve_cone (WellFormed.mem_args hf1 hn₂) proof₂).mono fun _ answer _ hanswer => ?_
    rw [Bool.eq_iff_iff, decide_eq_true_eq, ← hverdict]
    exact hanswer

/-- `choiceFramework` with its arguments numbered from 6 down, two arguments more, which 6 and 5
attack, and its attacks in another order. -/
def renamedFramework : WellFormed where
  n := 6
  calls := [(5, 3), (5, 1), (3, 5), (2, 1), (4, 4), (3, 4), (4, 6), (6, 2)]
  order := [(5, 3), (5, 1), (3, 5), (2, 1), (4, 4), (3, 4), (4, 6), (6, 2)]
  bound := by decide
  inRange := by decide
  iteration := iterationOrder_self (by decide)

theorem keepsCone_renamed : KeepsCone (7 - ·) choiceFramework.af renamedFramework.af 1 := by
  have hrange : ∀ b ∈ choiceFramework.af.cone 1, 1 ≤ b ∧ b ≤ 4 := by
    intro b hb
    have hmem := (choiceFramework.attackClosed_cone (q := 1) ⟨by decide, by decide⟩).subset hb
    rwa [WellFormed.af, AF.args, buildAF_numArgs] at hmem
  refine ⟨fun a ha b hb hab => ?_, fun b hb c => ?_⟩
  · have ha4 := hrange a ha
    have hb4 := hrange b hb
    have hsub : 7 - a = 7 - b := hab
    omega
  · have hb4 := hrange b hb
    simp only [AF.att, WellFormed.af, buildAF_attacks, List.mem_toFinset, choiceFramework,
      renamedFramework, List.mem_cons, Prod.mk.injEq, List.not_mem_nil, or_false]
    obtain rfl | rfl | rfl | rfl : b = 1 ∨ b = 2 ∨ b = 3 ∨ b = 4 := by omega
    all_goals simp [or_and_right, exists_or, eq_comm]

theorem solve_local_choice :
    ∃ verdict, Solve choiceFramework.af 1 [] (fun _ answer _ => answer = verdict) ∧
      Solve renamedFramework.af 6 [] fun _ answer _ => answer = verdict :=
  solve_local choiceFramework renamedFramework (by decide) (by decide) (by decide) (by decide)
    keepsCone_renamed [] []

end AFAnalyzer
