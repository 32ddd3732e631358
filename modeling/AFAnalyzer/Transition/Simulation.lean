import AFAnalyzer.Transition.Run

/-!
# Simulation between transition systems

Two rules carry what is known of one system over to another.

* `Simulation`: a system whose steps are finer than those of another one.  A fine step
  either shows as a step of the coarse system or leaves the coarse state alone.  What the
  coarse system settles on, the fine one settles on as well (`Simulation.settles`), provided
  that it cannot stutter for ever and is not stuck where the coarse system can move.
* `Refines`: a relation between the states of two systems under which every step of the
  first is matched by a run of the second.  What holds of all reachable states of the second
  then holds, through the relation, of those of the first (`Refines.run`).
-/

namespace Transition

variable {σ τ ι κ : Type*}

/-- Along `abs`, a step of `fine` is the step of `coarse` that its label shows, or it
stutters.  `P` is an invariant of `fine` under which this is so. -/
structure Simulation (fine : τ → κ → τ → Prop) (coarse : σ → ι → σ → Prop) (abs : τ → σ)
    (shown : κ → Option ι) (P : τ → Prop) : Prop where
  preserves : ∀ t k t', P t → fine t k t' → P t'
  shows : ∀ t k t' ℓ, P t → fine t k t' → shown k = some ℓ → coarse (abs t) ℓ (abs t')
  stutters : ∀ t k t', P t → fine t k t' → shown k = none → abs t' = abs t

variable {fine : τ → κ → τ → Prop} {coarse : σ → ι → σ → Prop} {abs : τ → σ}
  {shown : κ → Option ι} {P : τ → Prop} {t t' : τ} {ks : List κ}

namespace Simulation

/-- **Runs are simulated**: a fine run shows as a coarse one. -/
theorem run (hsim : Simulation fine coarse abs shown P) (h : Run fine t ks t') (ht : P t) :
    Run coarse (abs t) (ks.filterMap shown) (abs t') := by
  induction h with
  | nil t => exact .nil (abs t)
  | @cons t u v k ks first _ ih =>
    have hrest := ih (hsim.preserves t k u ht first)
    cases hk : shown k with
    | none =>
      rw [List.filterMap_cons_none hk]
      rwa [hsim.stutters t k u ht first hk] at hrest
    | some ℓ =>
      rw [List.filterMap_cons_some hk]
      exact .cons (hsim.shows t k u ℓ ht first hk) hrest

theorem invariant (hsim : Simulation fine coarse abs shown P) (h : Run fine t ks t') (ht : P t) :
    P t' := h.invariant hsim.preserves ht

/-- **Bounded stuttering.**  If every stuttering step lowers `ψ` and every other step raises
it by at most `c`, a run that shows as `n` steps has at most `n + ψ t + c * n` steps. -/
theorem length_le {ψ : τ → ℕ} {c : ℕ} (hsim : Simulation fine coarse abs shown P)
    (hstutter : ∀ t k t', P t → fine t k t' → shown k = none → ψ t' < ψ t)
    (hshown : ∀ t k t', P t → fine t k t' → ψ t' ≤ ψ t + c) (h : Run fine t ks t') (ht : P t) :
    ks.length + ψ t' ≤
      (ks.filterMap shown).length + ψ t + c * (ks.filterMap shown).length := by
  induction h with
  | nil t => simp
  | @cons t u v k ks first _ ih =>
    have hrest := ih (hsim.preserves t k u ht first)
    rw [List.length_cons]
    cases hk : shown k with
    | none =>
      have hlt := hstutter t k u ht first hk
      rw [List.filterMap_cons_none hk]
      omega
    | some ℓ =>
      have hle := hshown t k u ht first
      rw [List.filterMap_cons_some hk, List.length_cons, Nat.mul_succ]
      omega

/-- **What the coarse system settles on, the fine one settles on.** -/
theorem settles {ψ : τ → ℕ} {c : ℕ} {post : σ → Prop}
    (hsim : Simulation fine coarse abs shown P) (ht : P t)
    (hstutter : ∀ t k t', P t → fine t k t' → shown k = none → ψ t' < ψ t)
    (hshown : ∀ t k t', P t → fine t k t' → ψ t' ≤ ψ t + c)
    (hlive : ∀ t, P t → (∀ k t', ¬ fine t k t') → ∀ ℓ s, ¬ coarse (abs t) ℓ s)
    (h : Settles coarse (abs t) post) : Settles fine t fun t' => post (abs t') where
  bounded := by
    obtain ⟨bound, hbound⟩ := h.bounded
    refine ⟨bound + ψ t + c * bound, fun ks t' hrun => ?_⟩
    have hcoarse := hbound _ _ (hsim.run hrun ht)
    have hfine := hsim.length_le hstutter hshown hrun ht
    have hmul := Nat.mul_le_mul_left c hcoarse
    omega
  ends := fun ks t' hrun hstuck =>
    h.ends _ _ (hsim.run hrun ht) (hlive t' (hsim.invariant hrun ht) hstuck)

end Simulation

/-! ## Refinement along a relation -/

/-- Under the invariant `P` of `step`, every step from a state related to `x` is matched by a
run of `spec` from `x` to a state related to where it leads. -/
structure Refines (step : τ → κ → τ → Prop) (spec : σ → ι → σ → Prop) (R : τ → σ → Prop)
    (P : τ → Prop) : Prop where
  preserves : ∀ t k t', P t → step t k t' → P t'
  matched : ∀ t k t' x, P t → R t x → step t k t' → ∃ ls x', Run spec x ls x' ∧ R t' x'

variable {step : τ → κ → τ → Prop} {spec : σ → ι → σ → Prop} {R : τ → σ → Prop} {x : σ}

/-- **Runs are refined.** -/
theorem Refines.run (href : Refines step spec R P) (h : Run step t ks t') (ht : P t)
    (hx : R t x) : ∃ ls x', Run spec x ls x' ∧ R t' x' := by
  induction h generalizing x with
  | nil t => exact ⟨[], x, .nil x, hx⟩
  | @cons t u v k ks first _ ih =>
    obtain ⟨ls, y, hfirst, hy⟩ := href.matched t k u x ht hx first
    obtain ⟨ls', z, hrest, hz⟩ := ih (href.preserves t k u ht first) hy
    exact ⟨ls ++ ls', z, hfirst.append hrest, hz⟩

end Transition
