import AFAnalyzer.Dung.Reduct

/-!
# The grounded set, and what may be dropped around a query

Two reductions leave the sceptical verdict on an argument alone.

*Directionality.*  If the active arguments outside `U` do not attack `U`, the
preferred sets of `U` are the traces on `U` of the preferred sets of `A`
(`AttackClosed.preferred_inter`, `AttackClosed.exists_preferred_inter_eq`), so an
argument of `U` may be judged in `U` (`AttackClosed.skepticallyAccepted_iff`).

*The grounded set.*  The least fixed point of the characteristic function lies in
every preferred set, so by modularity everything it accepts or attacks may be
removed (`Grounds.skepticallyAccepted_reduct_iff`).

`Grounds att A S` isolates what an incremental computation of the grounded set
maintains: `S` is admissible and inside the grounded set.  It is closed under
adding a defended argument (`Grounds.accept`) and reaches the grounded set exactly
when nothing more is defended (`Grounds.eq_grounded`).
-/

namespace Dung

variable {α : Type*}

/-- The characteristic function of the sub-framework induced by `A`. -/
def characteristic (att : α → α → Prop) (A : Set α) : Set α →o Set α where
  toFun S := {a ∈ A | Defends att A S a}
  monotone' := fun _ _ hST _ ha => ⟨ha.1, fun b hb hba => (ha.2 b hb hba).mono hST⟩

/-- The grounded set: the least fixed point of the characteristic function. -/
def grounded (att : α → α → Prop) (A : Set α) : Set α := OrderHom.lfp (characteristic att A)

variable {att : α → α → Prop} {A S T E U : Set α} {a b q : α}

/-! ## The grounded set -/

theorem characteristic_grounded : characteristic att A (grounded att A) = grounded att A :=
  OrderHom.map_lfp _

theorem grounded_subset_of_characteristic_subset (h : characteristic att A S ⊆ S) :
    grounded att A ⊆ S :=
  OrderHom.lfp_le _ h

theorem grounded_subset : grounded att A ⊆ A := by
  rw [← characteristic_grounded]
  exact fun _ ha => ha.1

/-- The grounded set contains whatever it defends. -/
theorem mem_grounded_of_defends (ha : a ∈ A) (h : Defends att A (grounded att A) a) :
    a ∈ grounded att A := by
  rw [← characteristic_grounded]
  exact ⟨ha, h⟩

theorem defends_of_mem_grounded (h : a ∈ grounded att A) : Defends att A (grounded att A) a := by
  rw [← characteristic_grounded] at h
  exact h.2

/-- A preferred set contains whatever it defends. -/
theorem Preferred.mem_of_defends (hE : Preferred att A E) (ha : a ∈ A)
    (h : Defends att A E a) : a ∈ E := by
  have hno : ¬ Attacks att E a := by
    rintro ⟨e, he, hea⟩
    obtain ⟨c, hc, hce⟩ := h e (hE.admissible.subset he) hea
    exact hE.admissible.conflictFree c hc e he hce
  have hself : ¬ att a a := by
    intro haa
    exact hno (h a ha haa)
  have hout : ∀ e ∈ E, ¬ att a e := by
    intro e he hae
    exact hno (hE.admissible.defends e he a ha hae)
  have hadm : Admissible att A (insert a E) := by
    refine ⟨Set.insert_subset ha hE.admissible.subset, ?_, ?_⟩
    · rintro x (rfl | hx) y (rfl | hy)
      · exact hself
      · exact hout y hy
      · exact fun hxy => hno ⟨x, hx, hxy⟩
      · exact hE.admissible.conflictFree x hx y hy
    · rintro x (rfl | hx) b hb hbx
      · exact (h b hb hbx).mono (Set.subset_insert _ _)
      · exact (hE.admissible.defends x hx b hb hbx).mono (Set.subset_insert _ _)
  exact hE.2 hadm (Set.subset_insert a E) (Set.mem_insert a E)

/-- **The grounded set lies in every preferred set.** -/
theorem grounded_subset_preferred (hE : Preferred att A E) : grounded att A ⊆ E :=
  grounded_subset_of_characteristic_subset fun _ ha => hE.mem_of_defends ha.1 ha.2

theorem grounded_conflictFree : ConflictFree att (grounded att A) := by
  obtain ⟨E, hE⟩ := exists_preferred att A
  intro a ha b hb
  exact hE.admissible.conflictFree a (grounded_subset_preferred hE ha) b
    (grounded_subset_preferred hE hb)

theorem grounded_admissible : Admissible att A (grounded att A) where
  subset := grounded_subset
  conflictFree := grounded_conflictFree
  defends := fun _ ha => defends_of_mem_grounded ha

theorem skepticallyAccepted_of_mem_grounded (h : q ∈ grounded att A) :
    SkepticallyAccepted att A q :=
  fun _ hE => grounded_subset_preferred hE h

/-! ## Computing the grounded set one argument at a time -/

/-- `S` is an admissible part of the grounded set. -/
structure Grounds (att : α → α → Prop) (A S : Set α) : Prop where
  admissible : Admissible att A S
  subset_grounded : S ⊆ grounded att A

theorem grounds_empty : Grounds att A ∅ := ⟨admissible_empty, Set.empty_subset _⟩

/-- What a part of the grounded set defends is grounded. -/
theorem Grounds.mem_grounded_of_defends (hS : Grounds att A S) (ha : a ∈ A)
    (h : Defends att A S a) : a ∈ grounded att A :=
  Dung.mem_grounded_of_defends ha fun b hb hba => (h b hb hba).mono hS.subset_grounded

/-- Accepting one more defended argument keeps the invariant. -/
theorem Grounds.accept (hS : Grounds att A S) (ha : a ∈ A) (h : Defends att A S a) :
    Grounds att A (insert a S) := by
  have hga := hS.mem_grounded_of_defends ha h
  have hsub : insert a S ⊆ grounded att A := Set.insert_subset hga hS.subset_grounded
  refine ⟨⟨Set.insert_subset ha hS.admissible.subset, ?_, ?_⟩, hsub⟩
  · exact fun x hx y hy => grounded_conflictFree x (hsub hx) y (hsub hy)
  · rintro x (rfl | hx) b hb hbx
    · exact (h b hb hbx).mono (Set.subset_insert _ _)
    · exact (hS.admissible.defends x hx b hb hbx).mono (Set.subset_insert _ _)

theorem Grounds.subset_preferred (hS : Grounds att A S) (hE : Preferred att A E) : S ⊆ E :=
  hS.subset_grounded.trans (grounded_subset_preferred hE)

/-- **Modularity for parts of the grounded set.** -/
theorem Grounds.skepticallyAccepted_reduct_iff (hS : Grounds att A S) (hq : q ∉ S) :
    SkepticallyAccepted att A q ↔ SkepticallyAccepted att (reduct att A S) q :=
  Dung.skepticallyAccepted_reduct_iff hS.admissible (fun _ hE => hS.subset_preferred hE) hq

/-- The computation is complete when every argument of the reduct is still
attacked from within the reduct. -/
theorem Grounds.eq_grounded (hS : Grounds att A S)
    (h : ∀ a ∈ reduct att A S, ∃ b ∈ reduct att A S, att b a) : S = grounded att A := by
  refine Set.Subset.antisymm hS.subset_grounded
    (grounded_subset_of_characteristic_subset fun a ha => ?_)
  by_contra haS
  by_cases hatt : Attacks att S a
  · -- a member of `S` attacking `a` would be attacked by `S`
    obtain ⟨s, hs, hsa⟩ := hatt
    exact hS.admissible.conflictFree.not_attacks hs (ha.2 s (hS.admissible.subset hs) hsa)
  · obtain ⟨b, hb, hba⟩ := h a ⟨ha.1, haS, hatt⟩
    exact hb.2.2 (ha.2 b hb.1 hba)

/-! ## Directionality -/

/-- `U` is a set of active arguments that no active argument outside attacks. -/
structure AttackClosed (att : α → α → Prop) (A U : Set α) : Prop where
  subset : U ⊆ A
  closed : ∀ a ∈ U, ∀ b ∈ A, att b a → b ∈ U

theorem AttackClosed.admissible (hU : AttackClosed att A U) (hS : Admissible att U S) :
    Admissible att A S where
  subset := hS.subset.trans hU.subset
  conflictFree := hS.conflictFree
  defends := fun a ha b hb hba =>
    hS.defends a ha b (hU.closed a (hS.subset ha) b hb hba) hba

/-- The trace of an admissible set on a closed part is admissible there: the
counter-attackers are inside, because they attack a member of the part. -/
theorem AttackClosed.admissible_inter (hU : AttackClosed att A U) (hS : Admissible att A S) :
    Admissible att U (S ∩ U) where
  subset := Set.inter_subset_right
  conflictFree := fun a ha b hb => hS.conflictFree a ha.1 b hb.1
  defends := by
    intro a ha b hb hba
    obtain ⟨c, hc, hcb⟩ := hS.defends a ha.1 b (hU.subset hb) hba
    exact ⟨c, ⟨hc, hU.closed b hb c (hS.subset hc) hcb⟩, hcb⟩

/-- **Directionality, restriction.**  The trace of a preferred set is preferred. -/
theorem AttackClosed.preferred_inter (hU : AttackClosed att A U) (hE : Preferred att A E) :
    Preferred att U (E ∩ U) := by
  refine ⟨hU.admissible_inter hE.admissible, fun T hT hle => ?_⟩
  have hTA : Admissible att A T := hU.admissible hT
  -- an attack of `T` on `E` would be answered by the trace of `E`, a part of `T`
  have hTE : ∀ t ∈ T, ∀ e ∈ E, ¬ att t e := by
    intro t ht e he hte
    obtain ⟨c, hc, hct⟩ := hE.admissible.defends e he t (hTA.subset ht) hte
    have hcU : c ∈ U := hU.closed t (hT.subset ht) c (hE.admissible.subset hc) hct
    exact hT.conflictFree c (hle ⟨hc, hcU⟩) t ht hct
  have hunion : Admissible att A (T ∪ E) := hTA.union hE.admissible hTE
  have heq : T ∪ E = E := hE.eq_of_subset hunion Set.subset_union_right
  intro t ht
  exact ⟨heq ▸ Or.inl ht, hT.subset ht⟩

/-- **Directionality, extension.**  Every preferred set of the part is such a
trace. -/
theorem AttackClosed.exists_preferred_inter_eq (hU : AttackClosed att A U)
    (hT : Preferred att U T) : ∃ E, Preferred att A E ∧ E ∩ U = T := by
  obtain ⟨E, hTE, hE⟩ := exists_preferred_of_admissible (hU.admissible hT.admissible)
  refine ⟨E, hE, ?_⟩
  exact hT.eq_of_subset (hU.admissible_inter hE.admissible)
    fun t ht => ⟨hTE ht, hT.admissible.subset ht⟩

/-- **An argument of a closed part may be judged inside the part.** -/
theorem AttackClosed.skepticallyAccepted_iff (hU : AttackClosed att A U) (hq : q ∈ U) :
    SkepticallyAccepted att A q ↔ SkepticallyAccepted att U q := by
  constructor
  · intro h T hT
    obtain ⟨E, hE, rfl⟩ := hU.exists_preferred_inter_eq hT
    exact ⟨h E hE, hq⟩
  · intro h E hE
    exact (h (E ∩ U) (hU.preferred_inter hE)).1

/-- The grounded set of a closed part is the trace of the grounded set. -/
theorem AttackClosed.grounded_eq (hU : AttackClosed att A U) :
    grounded att U = grounded att A ∩ U := by
  apply Set.Subset.antisymm
  · refine grounded_subset_of_characteristic_subset fun a ha => ⟨?_, ha.1⟩
    refine mem_grounded_of_defends (hU.subset ha.1) fun b hb hba => ?_
    exact (ha.2 b (hU.closed a ha.1 b hb hba) hba).mono Set.inter_subset_left
  · -- the active arguments outside `U` complete the grounded set of `U` to a
    -- set closed under the characteristic function
    have hpre : grounded att A ⊆ grounded att U ∪ A \ U := by
      refine grounded_subset_of_characteristic_subset fun a ha => ?_
      by_cases haU : a ∈ U
      · refine Or.inl (mem_grounded_of_defends haU fun b hb hba => ?_)
        obtain ⟨c, hc | hc, hcb⟩ := ha.2 b (hU.subset hb) hba
        · exact ⟨c, hc, hcb⟩
        · exact absurd (hU.closed b hb c hc.1 hcb) hc.2
      · exact Or.inr ⟨ha.1, haU⟩
    rintro a ⟨ha, haU⟩
    exact (hpre ha).resolve_right fun h => h.2 haU

end Dung
