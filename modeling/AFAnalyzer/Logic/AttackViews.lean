import AFAnalyzer.Logic.AF

/-!
# The seven views of the attack relation

`finish_initilization` writes the attacks into a vector and a bitset of attackers and of
victims for every argument, into `self_attack` and into `symmetric_attacks`; `exists_attack`
still reads the set that `add_attack` filled.  Different stages of the solver read different
views.

`WellFormed` asks for what the solver needs.  The construction itself works for more: any
number of arguments whose indices fit the `int` counters of the loops, and ids from 0 on
(`Construction`).  `views_agree` says that after it all views are the relation of the
`add_attack` calls.
-/

namespace AFAnalyzer

/-- A sequence of calls that builds a framework: `initialize(n)`, `add_attack` for the ids
in `0..n`, `finish_initilization`. -/
structure Construction where
  n : ℕ
  calls : List (ℕ × ℕ)
  order : List (ℕ × ℕ)
  bound : n < 2 ^ 31 - 1
  inRange : ∀ p ∈ calls, p.1 ≤ n ∧ p.2 ≤ n
  iteration : IterationOrder calls.toFinset order

/-- The framework object at the end. -/
def Construction.af (C : Construction) : AF := buildAF C.n C.calls C.order

/-- All views of `F` say of the ids in `0..n` what the calls said. -/
structure ViewsAgree (n : ℕ) (calls : List (ℕ × ℕ)) (F : AF) : Prop where
  exists_iff : ∀ a v, a ≤ n → v ≤ n → (F.existsAttack a v = true ↔ (a, v) ∈ calls)
  victims_bit : ∀ a v, a ≤ n → v ≤ n → ((F.victimsAt a).bit v = true ↔ (a, v) ∈ calls)
  attackers_bit : ∀ a v, a ≤ n → v ≤ n → ((F.attackersAt v).bit a = true ↔ (a, v) ∈ calls)
  victims_vector : ∀ a v, a ≤ n → v ≤ n → (v ∈ (F.victimsAt a).vector ↔ (a, v) ∈ calls)
  attackers_vector : ∀ a v, a ≤ n → v ≤ n → (a ∈ (F.attackersAt v).vector ↔ (a, v) ∈ calls)
  nodup : ∀ a ≤ n, (F.victimsAt a).vector.Nodup ∧ (F.attackersAt a).vector.Nodup
  length : ∀ a ≤ n, (F.victimsAt a).bitset.length = n + 1 ∧ (F.attackersAt a).bitset.length = n + 1
  self_iff : ∀ a ≤ n, F.selfAttack.getD a false = true ↔ (a, a) ∈ calls
  symmetric_iff : ∀ a v, a ≤ n → v ≤ n →
    ((a, v) ∈ F.symmetricAttacks ↔ (a, v) ∈ calls ∧ (v, a) ∈ calls)

variable {n : ℕ} {calls order : List (ℕ × ℕ)}

/-! ## The two members filled in the loop -/

namespace AF

/-- After the loop the flag of `a` is set when it was set before or `a` attacks itself. -/
theorem selfAttack_foldl_fillAttack (attacks : Finset (ℕ × ℕ)) (order : List (ℕ × ℕ)) (t : Tables)
    {a : ℕ} (ha : a < t.selfAttack.length) :
    (order.foldl (fillAttack attacks) t).selfAttack.getD a false = true ↔
      t.selfAttack.getD a false = true ∨ (a, a) ∈ order := by
  induction order generalizing t with
  | nil => simp
  | cons p order ih =>
    obtain ⟨source, target⟩ := p
    have hlen : a < (fillAttack attacks t (source, target)).selfAttack.length := by
      unfold fillAttack
      simp only
      split
      · rw [List.length_set]
        exact ha
      · exact ha
    have hfill : (fillAttack attacks t (source, target)).selfAttack.getD a false = true ↔
        t.selfAttack.getD a false = true ∨ (a, a) = (source, target) := by
      show (if source = target then t.selfAttack.set source true else t.selfAttack).getD a false =
        true ↔ _
      rw [Prod.mk.injEq]
      by_cases hst : source = target
      · rw [if_pos hst, List.getD_eq_getElem?_getD, List.getElem?_set]
        by_cases hsa : source = a
        · subst hsa
          subst hst
          simp [ha]
        · have has : ¬ a = source := fun h => hsa h.symm
          simp [hsa, has, List.getD_eq_getElem?_getD]
      · rw [if_neg hst]
        refine (or_iff_left ?_).symm
        rintro ⟨h1, h2⟩
        exact hst (h1.symm.trans h2)
    rw [List.foldl_cons, ih _ hlen, hfill, List.mem_cons, or_assoc]

/-- After the loop the symmetric attacks are the old ones and those visited whose reverse is
an attack, in both directions. -/
theorem symmetricAttacks_foldl_fillAttack (attacks : Finset (ℕ × ℕ)) (order : List (ℕ × ℕ))
    (t : Tables) {p : ℕ × ℕ} :
    p ∈ (order.foldl (fillAttack attacks) t).symmetricAttacks ↔
      p ∈ t.symmetricAttacks ∨ ∃ o ∈ order, o.swap ∈ attacks ∧ (p = o ∨ p = o.swap) := by
  induction order generalizing t with
  | nil => simp
  | cons o order ih =>
    have hfill : p ∈ (fillAttack attacks t o).symmetricAttacks ↔
        p ∈ t.symmetricAttacks ∨ o.swap ∈ attacks ∧ (p = o ∨ p = o.swap) := by
      show p ∈ (if o.swap ∈ attacks then insert o.swap (insert o t.symmetricAttacks)
        else t.symmetricAttacks) ↔ _
      by_cases hswap : o.swap ∈ attacks
      · rw [if_pos hswap, Finset.mem_insert, Finset.mem_insert]
        tauto
      · rw [if_neg hswap]
        tauto
    rw [List.foldl_cons, ih, hfill, List.exists_mem_cons_iff, or_assoc]

end AF

variable (hcalls : ∀ p ∈ calls, p.1 ≤ n ∧ p.2 ≤ n) (horder : IterationOrder calls.toFinset order)

include horder

theorem buildAF_selfAttack {a : ℕ} (ha : a ≤ n) :
    (buildAF n calls order).selfAttack.getD a false = true ↔ (a, a) ∈ calls := by
  rw [buildAF, AF.addAttacks_initializeArgs_fresh]
  refine (AF.selfAttack_foldl_fillAttack _ order _ ?_).trans ?_
  · show a < (List.replicate (n + 1) false).length
    rw [List.length_replicate]
    omega
  · show (List.replicate (n + 1) false).getD a false = true ∨ (a, a) ∈ order ↔ (a, a) ∈ calls
    rw [horder.mem_iff, List.mem_toFinset, List.getD_eq_getElem?_getD,
      List.getElem?_getD_replicate_default_eq]
    simp

theorem mem_buildAF_symmetricAttacks (a v : ℕ) :
    (a, v) ∈ (buildAF n calls order).symmetricAttacks ↔ (a, v) ∈ calls ∧ (v, a) ∈ calls := by
  have hmem : ∀ p, p ∈ order ↔ p ∈ calls := fun p => (horder.mem_iff p).trans List.mem_toFinset
  rw [buildAF, AF.addAttacks_initializeArgs_fresh]
  refine (AF.symmetricAttacks_foldl_fillAttack calls.toFinset order _).trans ?_
  show (a, v) ∈ (∅ : Finset (ℕ × ℕ)) ∨ _ ↔ _
  constructor
  · rintro (hnot | ⟨o, ho, hswap, rfl | hao⟩)
    · exact absurd hnot (Finset.notMem_empty _)
    · exact ⟨(hmem _).mp ho, List.mem_toFinset.mp hswap⟩
    · have hoav : o = (v, a) := by rw [← Prod.swap_swap o, ← hao]; rfl
      subst hoav
      exact ⟨List.mem_toFinset.mp hswap, (hmem _).mp ho⟩
  · rintro ⟨hav, hva⟩
    exact Or.inr ⟨(a, v), (hmem _).mpr hav, List.mem_toFinset.mpr hva, Or.inl rfl⟩

include hcalls

/-- The construction, for any number of arguments. -/
theorem viewsAgree_buildAF : ViewsAgree n calls (buildAF n calls order) where
  exists_iff := by
    intro a v _ _
    rw [AF.existsAttack, decide_eq_true_iff, buildAF_attacks, List.mem_toFinset]
  victims_bit := fun a v _ _ => bit_buildAF_victimsAt hcalls horder a v
  attackers_bit := fun a v _ _ => bit_buildAF_attackersAt hcalls horder v a
  victims_vector := fun a v _ _ => mem_buildAF_victimsAt hcalls horder a v
  attackers_vector := fun a v _ _ => mem_buildAF_attackersAt hcalls horder v a
  nodup := fun _ ha => ⟨(buildAF_victims_matches hcalls horder ha).nodup,
    (buildAF_attackers_matches hcalls horder ha).nodup⟩
  length := fun _ ha => ⟨(buildAF_victims_matches hcalls horder ha).length,
    (buildAF_attackers_matches hcalls horder ha).length⟩
  self_iff := fun _ ha => buildAF_selfAttack horder ha
  symmetric_iff := fun a v _ _ => mem_buildAF_symmetricAttacks horder a v

omit hcalls horder

/-- **All views of the attack relation agree**, with each other and with the calls of
`add_attack`. -/
theorem views_agree (C : Construction) : ViewsAgree C.n C.calls C.af :=
  viewsAgree_buildAF C.inRange C.iteration

end AFAnalyzer
