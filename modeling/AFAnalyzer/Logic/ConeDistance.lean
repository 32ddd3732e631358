import AFAnalyzer.Logic.PreProcessor
import AFAnalyzer.Transition.Walk

/-!
# The distances that `calculate_cone_influence` leaves behind

The list of unprocessed arguments is a queue: its distances never fall, and no collected
argument is more than one step further from the query than an argument that still waits.
That is the layering of breadth-first search (`ConeLayers`), and one round of the outer loop
keeps it (`ConeLayers.round`).  When the list is empty, the distances satisfy the two local
conditions of `Transition.isLeast_walk_of_labelling`, so on a fresh framework they are the
lengths of shortest attack paths to the query (`calculateConeInfluence_exact`).
-/

namespace AFAnalyzer

/-- **The layering.**  A collected argument but the query attacks one that is a step nearer;
no collected argument is more than one step behind a waiting one; the waiting ones stand in
the order of their distances; and the attackers of a processed argument are at most one step
further away. -/
structure ConeLayers (F : AF) (q : ℕ) (d : List ℕ) (st : ConeState) (processed : List ℕ) :
    Prop where
  parent : ∀ a ∈ st.active.vector, a ≠ q → ∃ x ∈ st.active.vector,
    F.att a x ∧ st.distances.getD a 0 = st.distances.getD x 0 + 1
  near : ∀ a ∈ st.active.vector, ∀ x ∈ st.unprocessed,
    st.distances.getD a 0 ≤ st.distances.getD x 0 + 1
  sorted : st.unprocessed.Pairwise fun x y => st.distances.getD x 0 ≤ st.distances.getD y 0
  settled : ∀ x ∈ processed, ∀ y, F.att y x → d.getD y 0 = 0 →
    st.distances.getD y 0 ≤ st.distances.getD x 0 + 1

variable {F : AF} {q a x : ℕ} {d : List ℕ} {st st' : ConeState} {processed rest : List ℕ}
  {argument : ℕ}

theorem coneLayers_coneStart : ConeLayers F q d (coneStart F q) [] where
  parent := fun a ha haq => absurd (List.mem_singleton.mp ha) haq
  near := by
    intro a ha x hx
    rw [List.mem_singleton.mp ha, List.mem_singleton.mp hx]
    omega
  sorted := List.pairwise_singleton _ _
  settled := fun x hx => absurd hx List.not_mem_nil

/-! ## One round -/

section Round

variable (h : ConeLayers F q d st processed) (hp : ConeProgress F d st processed)
  (hun : st.unprocessed = argument :: rest)
  (hround : ConeRound F q d argument (st.distances.getD argument 0)
    (F.attackersAt argument).vector { st with unprocessed := rest } st')

include hp hun in
/-- What waits has been collected. -/
theorem ConeProgress.mem_active : ∀ b ∈ argument :: rest, b ∈ st.active.vector := by
  intro b hb
  have hsplit := hp.split
  rw [hun] at hsplit
  rw [hsplit]
  exact List.mem_append_right _ hb

include h hun hround

/-- Every collected argument is at most one step behind the one whose turn it is. -/
theorem ConeLayers.le_of_mem_active : ∀ b ∈ st'.active.vector,
    st'.distances.getD b 0 ≤ st.distances.getD argument 0 + 1 := by
  obtain ⟨new, hnew, -, hfresh⟩ := hround.append
  intro b hb
  rw [hnew] at hb
  rcases List.mem_append.mp hb with hb | hb
  · rw [hround.kept b hb]
    exact h.near b hb argument (by rw [hun]; exact List.mem_cons_self)
  · rw [(hfresh b hb).2]

include hp

/-- And every waiting one is at least as far away. -/
theorem ConeLayers.le_of_mem_unprocessed : ∀ b ∈ st'.unprocessed,
    st.distances.getD argument 0 ≤ st'.distances.getD b 0 := by
  obtain ⟨new, -, hunp, hfresh⟩ := hround.append
  have hsorted := h.sorted
  rw [hun, List.pairwise_cons] at hsorted
  intro b hb
  rw [hunp] at hb
  rcases List.mem_append.mp hb with hb | hb
  · rw [hround.kept b (hp.mem_active hun b (List.mem_cons_of_mem argument hb))]
    exact hsorted.1 b hb
  · rw [(hfresh b hb).2]
    omega

/-- The new arguments stand behind the waiting ones, at the same distance. -/
theorem ConeLayers.sorted_round : st'.unprocessed.Pairwise fun x y =>
    st'.distances.getD x 0 ≤ st'.distances.getD y 0 := by
  obtain ⟨new, hnew, hunp, hfresh⟩ := hround.append
  have hrest : ∀ b ∈ rest, b ∈ st.active.vector := fun b hb =>
    hp.mem_active hun b (List.mem_cons_of_mem argument hb)
  have hsorted := h.sorted
  rw [hun, List.pairwise_cons] at hsorted
  rw [hunp]
  refine List.pairwise_append.mpr ⟨?_, ?_, fun b hb y hy => ?_⟩
  · refine hsorted.2.imp_of_mem fun {b y} hb hy hle => ?_
    rw [hround.kept b (hrest b hb), hround.kept y (hrest y hy)]
    exact hle
  · refine List.pairwise_of_forall_mem_list fun b hb y hy => ?_
    rw [(hfresh b hb).2, (hfresh y hy).2]
  · rw [(hfresh y hy).2]
    refine h.le_of_mem_active hun hround b ?_
    rw [hnew]
    exact List.mem_append_left _ (hrest b hb)

/-- **One round keeps the layering.** -/
theorem ConeLayers.round (hF : F.Coherent) : ConeLayers F q d st' (processed ++ [argument]) := by
  obtain ⟨new, hnew, -, hfresh⟩ := hround.append
  have hkept : ∀ b ∈ st.active.vector, st'.distances.getD b 0 = st.distances.getD b 0 :=
    hround.kept
  have hall := h.le_of_mem_active hun hround
  have hwait := h.le_of_mem_unprocessed hp hun hround
  have hold : ∀ b ∈ st.active.vector, b ∈ st'.active.vector := by
    intro b hb
    rw [hnew]
    exact List.mem_append_left _ hb
  have harg : argument ∈ st.active.vector := hp.mem_active hun argument List.mem_cons_self
  refine ⟨fun b hb hbq => ?_, fun b hb y hy => ?_, h.sorted_round hp hun hround,
    fun y hy z hzy hmark => ?_⟩
  · rw [hnew] at hb
    rcases List.mem_append.mp hb with hb | hb
    · obtain ⟨y, hy, hby, hdist⟩ := h.parent b hb hbq
      exact ⟨y, hold y hy, hby, by rw [hkept b hb, hkept y hy, hdist]⟩
    · exact ⟨argument, hold argument harg, (hfresh b hb).1, by
        rw [(hfresh b hb).2, hkept argument harg]⟩
  · have h1 := hall b hb
    have h2 := hwait y hy
    omega
  · rcases List.mem_append.mp hy with hy | hy
    · have hyA : y ∈ st.active.vector := by
        rw [hp.split]
        exact List.mem_append_left _ hy
      rw [hkept y hyA, hkept z (hp.collected y hy z hzy hmark)]
      exact h.settled y hy z hzy hmark
    · rw [List.mem_singleton.mp hy] at hzy ⊢
      rw [hkept argument harg]
      exact hall z (hround.collected z ((hF.mem_attackers argument z).mpr hzy) hmark)

end Round

/-- **The cone with its layering.** -/
theorem calculateConeInfluence_layers (hF : F.Coherent) (hq : q ∈ F.args) :
    ∃ st, calculateConeInfluence F q =
        some ({ F with distanceToQuery := st.distances }, st.active) ∧
      ConeInv F q F.distanceToQuery st ∧
      ConeProgress F F.distanceToQuery st st.active.vector ∧
      ConeLayers F q F.distanceToQuery st st.active.vector := by
  have hstart : ConeProgress F F.distanceToQuery (coneStart F q) [] :=
    ⟨rfl, fun x hx => absurd hx List.not_mem_nil⟩
  obtain ⟨st, hloop, hinv, hprog, hlayers⟩ :=
    coneLoop_rule (P := ConeLayers F q F.distanceToQuery) hF hq
      (fun st st' processed rest argument _ hp hun hround hst => hst.round hp hun hround hF)
      (F.numArgs + 1) (coneInv_coneStart hF hq) hstart coneLayers_coneStart (by omega)
  exact ⟨st, by rw [calculateConeInfluence, hloop]; rfl, hinv, hprog, hlayers⟩

/-- What a traversal of a fresh framework leaves behind. -/
structure ConeDistances (F : AF) (q : ℕ) (distances : List ℕ) (active : VectorBitSet) :
    Prop where
  agrees : VectorBitSet.Matches F.numArgs active
  mem_iff : ∀ a, a ∈ active.vector ↔ Relation.ReflTransGen F.att a q
  shortest : ∀ a ∈ active.vector, IsLeast {k | Transition.Walk F.att k a q} (distances.getD a 0)
  zero_iff : ∀ a ∈ active.vector, distances.getD a 0 = 0 ↔ a = q
  le : ∀ a ∈ active.vector, distances.getD a 0 ≤ F.numArgs - 1
  outside : ∀ a, a ∉ active.vector → distances.getD a 0 = 0

/-- The layering of a fresh framework, once every collected argument has been processed. -/
theorem WellFormed.coneDistances (W : WellFormed) (hq : q ∈ W.af.args)
    (hinv : ConeInv W.af q W.af.distanceToQuery st)
    (hprog : ConeProgress W.af W.af.distanceToQuery st st.active.vector)
    (hlayers : ConeLayers W.af q W.af.distanceToQuery st st.active.vector) :
    ConeDistances W.af q st.distances st.active := by
  have hF := W.coherent
  have hclosed : ∀ x ∈ st.active.vector, ∀ y, W.af.att y x →
      y ∈ st.active.vector ∧ st.distances.getD y 0 ≤ st.distances.getD x 0 + 1 :=
    fun x hx y hyx => ⟨hprog.collected x hx y hyx (W.distance_fresh y),
      hlayers.settled x hx y hyx (W.distance_fresh y)⟩
  refine
    { agrees := hinv.agrees
      mem_iff := fun a => ⟨fun ha => ?_, fun ha => ?_⟩
      shortest := fun a ha => ?_
      zero_iff := fun a ha => ⟨fun hzero => ?_, ?_⟩
      le := fun a ha => ?_
      outside := fun a ha => ?_ }
  · show a ∈ W.af.cone q
    rw [← W.coneSet_eq]
    exact hinv.reach a ha
  · show a ∈ st.active.vector
    induction ha using Relation.ReflTransGen.head_induction_on with
    | refl => exact hinv.query_mem
    | head hstep _ ih => exact (hclosed _ ih _ hstep).1
  · exact Transition.isLeast_walk_of_labelling (C := {a | a ∈ st.active.vector})
      (d := fun a => st.distances.getD a 0) hinv.query_mem hinv.query_zero hlayers.parent hclosed ha
  · show a = q
    by_contra haq
    have hpos := hinv.positive a ha haq
    omega
  · rintro rfl
    exact hinv.query_zero
  · show st.distances.getD a 0 ≤ W.af.numArgs - 1
    obtain ⟨i, hi, rfl⟩ := List.mem_iff_getElem.mp ha
    have hbelow := hinv.below i hi
    have hlen := hinv.length_le hF hq
    omega
  · rw [hinv.outside a ha]
    exact W.distance_fresh a

/-- **Breadth-first search is exact.**  On a fresh framework the traversal ends, collects
without duplicates exactly the arguments with an attack path to the query, and leaves the
length of a shortest one as their distance: 0 for the query only, at most `num_args - 1` for
all.  The distances of the other arguments are still 0. -/
theorem calculateConeInfluence_exact (W : WellFormed) {q : ℕ} (h1 : 1 ≤ q) (hn : q ≤ W.n) :
    ∃ distances active, calculateConeInfluence W.af q =
        some ({ W.af with distanceToQuery := distances }, active) ∧
      ConeDistances W.af q distances active := by
  have hq : q ∈ W.af.args := WellFormed.mem_args h1 hn
  obtain ⟨st, hcone, hinv, hprog, hlayers⟩ := calculateConeInfluence_layers W.coherent hq
  exact ⟨st.distances, st.active, hcone, W.coneDistances hq hinv hprog hlayers⟩

theorem calculateConeInfluence_exact_choice :
    ∃ distances active, calculateConeInfluence choiceFramework.af 1 =
        some ({ choiceFramework.af with distanceToQuery := distances }, active) ∧
      ConeDistances choiceFramework.af 1 distances active :=
  calculateConeInfluence_exact choiceFramework (by decide) (by decide)

end AFAnalyzer
