import AFAnalyzer.Search.Branches
import AFAnalyzer.Search.CheckRejection
import AFAnalyzer.Search.Scenario

/-!
# Hand-overs that overlap

An activation that has found a set that attacks the query sets the flag and assigns the
extended set to `output_extension`.  Nothing keeps two of these assignments apart: between its
last SAT call and its assignment an activation does not look at the flag again.  When one begins
inside another, the list is torn (`SearchState.torn`).

`exists_torn_iff` says for which inputs this happens under some schedule.  Two activations that
hand over are two nodes of the search with an answer at hand.  They have different extensions,
or one of them is the root and the other continues with a set that the root has found before
(`contended_of_handsOver`).  That is possible exactly if the question is
`Dung.Branching.Contended`.
-/

namespace AFAnalyzer

open Dung.Branching

variable {F : AF} {A R : VectorBitSet} {q : ℕ} {E L : List ℕ} {P : Set ℕ} {proof : List ℕ}
  {ls : List Action} {s s' : SearchState} {i j k : ℕ} {a b c : Activation}

/-! ## Who can hand over together -/

/-- An extension on the way to a set that is handed over. -/
theorem Activation.Ok.onTheWay (hok : a.Ok F A q) (hp : a.point.HandsOver)
    (hE : ExtensionOk F A q E) (hne : (listArgs E).Nonempty)
    (hsub : listArgs E ⊆ listArgs a.extensionBuild) : OnTheWay F.att A.args q (listArgs E) where
  nonempty := hne
  admissible := hE.admissible
  spares := hE.notAttacked
  below := by
    obtain ⟨hadm, hatt⟩ := hok.handOver hp
    refine ⟨_, hadm, hatt, hsub.trans ?_⟩
    rw [listArgs_extendExtension]
    exact Set.subset_union_left

theorem SearchState.getElem?_entries (ha : s.activations[i]? = some a) :
    s.entries[i]? = some a.entry := by
  have hlt := (List.getElem?_eq_some_iff.mp ha).1
  rw [entries, List.getElem?_append_left (by rwa [List.length_map]), List.getElem?_map, ha,
    Option.map_some]

/-- Only the root has an empty extension. -/
theorem BranchInv.creator_eq_none_iff (hbranch : BranchInv F A s) (htree : TreeInv F A s)
    (ha : s.activations[i]? = some a) : a.creator = none ↔ listArgs a.extensionBuild = ∅ := by
  have hentry := SearchState.getElem?_entries ha
  constructor
  · intro hnone
    rw [Activation.entry, hnone] at hentry
    exact hbranch.root _ (List.mem_of_getElem? hentry)
  · intro hempty
    by_contra hsome
    obtain ⟨k, hk⟩ := Option.ne_none_iff_exists'.mp hsome
    obtain ⟨-, c, -, hdeep⟩ := htree.activations i a k ha hk
    have hlt := hdeep.extension
    rw [hempty] at hlt
    exact hlt.2 (Set.empty_subset _)

/-- There is one root. -/
theorem BranchInv.root_unique (hbranch : BranchInv F A s) (htree : TreeInv F A s)
    (ha : s.activations[i]? = some a) (hb : s.activations[j]? = some b)
    (hEa : listArgs a.extensionBuild = ∅) (hEb : listArgs b.extensionBuild = ∅) : i = j := by
  have hentry := SearchState.getElem?_entries ha
  refine Forest.index_eq_of_nodup hbranch.nodup hentry ?_
  rw [SearchState.getElem?_entries hb, Activation.entry, Activation.entry,
    (hbranch.creator_eq_none_iff htree ha).mpr hEa, (hbranch.creator_eq_none_iff htree hb).mpr hEb,
    hEa, hEb]

/-- The task of an activation that hands over was created by the root, or the sets passed on
the way to it are two already. -/
theorem contended_or_created (hinv : SearchInv F A q s) (htree : TreeInv F A s)
    (hbranch : BranchInv F A s) (hb : s.activations[j]? = some b) (hp : b.point.HandsOver)
    (hne : (listArgs b.extensionBuild).Nonempty) :
    Contended F.att A.args q ∨
      ∃ (r : ℕ) (c : Activation), b.creator = some r ∧ s.activations[r]? = some c ∧
        listArgs c.extensionBuild = ∅ := by
  have hok := hinv.activations j b hb
  have hcreator : b.creator ≠ none := fun hnone => by
    rw [(hbranch.creator_eq_none_iff htree hb).mp hnone] at hne
    exact Set.not_nonempty_empty hne
  obtain ⟨r, hr⟩ := Option.ne_none_iff_exists'.mp hcreator
  obtain ⟨-, c, hc, hdeep⟩ := htree.activations j b r hb hr
  rcases Set.eq_empty_or_nonempty (listArgs c.extensionBuild) with hempty | hnec
  · exact Or.inr ⟨r, c, hr, hc, hempty⟩
  · have hway := hok.onTheWay hp (hinv.activations r c hc).extension hnec hdeep.extension.1
    exact Or.inl (contended_of_ne hway (hok.onTheWay hp hok.extension hne subset_rfl)
      hdeep.extension.ne)

/-- The root and another activation hand over. -/
theorem contended_of_root (hinv : SearchInv F A q s) (htree : TreeInv F A s)
    (hbranch : BranchInv F A s) (ha : s.activations[i]? = some a)
    (hb : s.activations[j]? = some b) (hpa : a.point.HandsOver) (hpb : b.point.HandsOver)
    (hEa : listArgs a.extensionBuild = ∅) (hEb : (listArgs b.extensionBuild).Nonempty) :
    Contended F.att A.args q := by
  rcases contended_or_created hinv htree hbranch hb hpb hEb with hcontended | ⟨r, c, hr, hc, hEc⟩
  · exact hcontended
  · -- the root has created `b`, so what it hands over does not include the extension of `b`
    obtain rfl := hbranch.root_unique htree hc ha hEc hEa
    have hentry := SearchState.getElem?_entries hb
    rw [Activation.entry, hr] at hentry
    obtain ⟨a', ha', hclosed⟩ := hbranch.closed r _ (List.mem_of_getElem? hentry)
    obtain rfl := Option.some.inj (ha.symm.trans ha')
    obtain ⟨hadm, hatt⟩ := (hinv.activations r a ha).handOver hpa
    have hok := hinv.activations j b hb
    exact ⟨_, hok.onTheWay hpb hok.extension hEb subset_rfl,
      Or.inl ⟨_, hadm, hatt, hclosed.handsOver hpa⟩⟩

/-- **Two activations that hand over.** -/
theorem contended_of_handsOver (hinv : SearchInv F A q s) (htree : TreeInv F A s)
    (hbranch : BranchInv F A s) (hij : i ≠ j) (ha : s.activations[i]? = some a)
    (hb : s.activations[j]? = some b) (hpa : a.point.HandsOver) (hpb : b.point.HandsOver) :
    Contended F.att A.args q := by
  rcases Set.eq_empty_or_nonempty (listArgs a.extensionBuild) with hEa | hEa
  · rcases Set.eq_empty_or_nonempty (listArgs b.extensionBuild) with hEb | hEb
    · exact absurd (hbranch.root_unique htree ha hb hEa hEb) hij
    · exact contended_of_root hinv htree hbranch ha hb hpa hpb hEa hEb
  · rcases Set.eq_empty_or_nonempty (listArgs b.extensionBuild) with hEb | hEb
    · exact contended_of_root hinv htree hbranch hb ha hpb hpa hEb hEa
    · by_cases hne : listArgs a.extensionBuild = listArgs b.extensionBuild
      · -- one creator does not make two tasks with the same extension
        rcases contended_or_created hinv htree hbranch ha hpa hEa with h | ⟨r, c, hr, hc, hEc⟩
        · exact h
        rcases contended_or_created hinv htree hbranch hb hpb hEb with h | ⟨r', c', hr', hc', hEc'⟩
        · exact h
        obtain rfl := hbranch.root_unique htree hc hc' hEc hEc'
        refine absurd (Forest.index_eq_of_nodup hbranch.nodup
          (SearchState.getElem?_entries ha) ?_) hij
        rw [SearchState.getElem?_entries hb, Activation.entry, Activation.entry, hr, hr', hne]
      · have hoka := hinv.activations i a ha
        have hokb := hinv.activations j b hb
        exact contended_of_ne (hoka.onTheWay hpa hoka.extension hEa subset_rfl)
          (hokb.onTheWay hpb hokb.extension hEb subset_rfl) hne

/-- **A torn list.** -/
theorem contended_of_torn (hin : SearchInput F A q)
    (h : Transition.Run (LawfulStep F A) (.init q proof) ls s) (ht : s.torn = true) :
    Contended F.att A.args q := by
  refine h.invariant_reachable (P := fun s => s.torn = true → Contended F.att A.args q)
    (fun ls s ℓ s' hrun ih hstep ht => ?_) (fun h => Bool.noConfusion h) ht
  cases hstep.1 with
  | start => exact ih ht
  | @act i a b e answer running active answers advance =>
    by_cases hhand : ∃ L, e = .handOver L
    · obtain ⟨L, rfl⟩ := hhand
      rcases Bool.or_eq_true_iff.mp ht with hold | hothers
      · exact ih hold
      · obtain ⟨j, c, hji, hc, hpoint⟩ := SearchState.othersAssign_iff.mp hothers
        have hp : a.point = .handOver := by
          cases Activation.advanced_of_advance advance with
          | handOver point => exact point
        exact contended_of_handsOver (SearchInv.run hin hrun) (TreeInv.run hin hrun)
          (BranchInv.run hin hrun) hji hc active (Or.inr hpoint) (Or.inl hp)
    · push Not at hhand
      rw [SearchState.torn_apply_of_ne hhand] at ht
      exact ih ht

theorem torn_eq_false (hin : SearchInput F A q) (hsingle : ¬ Contended F.att A.args q)
    (h : Transition.Run (LawfulStep F A) (.init q proof) ls s) : s.torn = false := by
  rw [← Bool.not_eq_true]
  exact fun ht => hsingle (contended_of_torn hin h ht)

/-! ## A run that tears the list -/

/-- The activation has an answer at hand: its next step sets the flag, and then it hands over. -/
structure Activation.Refutes (F : AF) (A : VectorBitSet) (a : Activation) : Prop where
  point : a.point = .answered
  onAnswer : ∃ b, a.onAnswer F A = (b, .setFlag) ∧ b.point = .handOver

/-- A model whose set attacks the query is an answer. -/
theorem HasModel.refutes {v : ℕ → Bool} (h : HasModel q E R v a) (hin : SearchInput F A q)
    (hR : IsReduct F A E R) (hatt : Dung.Attacks F.att (listArgs (R.vector.filter v)) q) :
    a.Refutes F A where
  point := h.point
  onAnswer := by
    have hne : R.vector.filter v ≠ [] := by
      obtain ⟨x, hx, -⟩ := hatt
      exact List.ne_nil_of_mem hx
    exact ⟨_, h.onAnswer_reject (fun x hx => hin.coherent.id_range (hR.range hin.range x hx)) hne
      ((checkRejection_iff hin.coherent).mpr hatt), rfl⟩

/-- Two activations with an answer at hand may both set the flag, and then both begin to hand
over. -/
theorem exists_torn_of_refutes (hij : i ≠ j) (hrunning : s.fault = false)
    (ha : s.activations[i]? = some a) (hb : s.activations[j]? = some b) (hRa : a.Refutes F A)
    (hRb : b.Refutes F A) :
    ∃ ls s', Transition.Run (LawfulStep F A) s ls s' ∧ s'.torn = true := by
  have hi := (List.getElem?_eq_some_iff.mp ha).1
  have hj := (List.getElem?_eq_some_iff.mp hb).1
  obtain ⟨a₁, ha₁, hpa₁⟩ := hRa.onAnswer
  obtain ⟨b₁, hb₁, hpb₁⟩ := hRb.onAnswer
  let s₁ : SearchState := s.apply i a₁ .setFlag
  have h₁ : LawfulStep F A s (.act i .setFlag) s₁ :=
    lawfulStep_act none hrunning ha (fun h => absurd (hRa.point.symm.trans h) nofun)
      ((Activation.advance_answered hRa.point).trans (congrArg some ha₁))
  let s₂ : SearchState := s₁.apply j b₁ .setFlag
  have h₂ : LawfulStep F A s₁ (.act j .setFlag) s₂ :=
    lawfulStep_act none hrunning ((List.getElem?_set_ne hij).trans hb)
      (fun h => absurd (hRb.point.symm.trans h) nofun)
      ((Activation.advance_answered hRb.point).trans (congrArg some hb₁))
  have ha₂ : s₂.activations[i]? = some a₁ :=
    (List.getElem?_set_ne (Ne.symm hij)).trans (List.getElem?_set_self hi)
  have hb₂ : s₂.activations[j]? = some b₁ := by
    refine List.getElem?_set_self ?_
    rwa [SearchState.activations_apply, List.length_set]
  let a₂ : Activation := { a₁ with point := .assigning }
  let s₃ : SearchState :=
    s₂.apply i a₂ (.handOver (extendExtension a₁.extensionBuild a₁.initialSet))
  have h₃ : LawfulStep F A s₂ (.act i (.handOver _)) s₃ :=
    lawfulStep_act none hrunning ha₂ (fun h => absurd (hpa₁.symm.trans h) nofun)
      (Activation.advance_handOver hpa₁)
  have ha₃ : s₃.activations[i]? = some a₂ :=
    List.getElem?_set_self (List.getElem?_eq_some_iff.mp ha₂).1
  have h₄ := lawfulStep_act (F := F) (A := A) (s := s₃) none hrunning
    ((List.getElem?_set_ne hij).trans hb₂) (fun h => absurd (hpb₁.symm.trans h) nofun)
    (Activation.advance_handOver hpb₁)
  refine ⟨_, _, .cons h₁ (.cons h₂ (.cons h₃ (.single h₄))), ?_⟩
  show (s₃.torn || s₃.othersAssign j) = true
  rw [SearchState.othersAssign_iff.mpr ⟨i, a₂, hij, ha₃, rfl⟩, Bool.or_true]

/-- **A task can find an answer above its extension.** -/
theorem exists_taskRefutes (hin : SearchInput F A q) {t : Task}
    (hE : ExtensionOk F A q t.newExtensionBuild) (hP : Dung.Admissible F.att A.args P)
    (hatt : Dung.Attacks F.att P q) (hsub : listArgs t.newExtensionBuild ⊆ P)
    (hrunning : s.fault = false) (hflag : s.flag = false) (ht : s.tasks[k]? = some t)
    (ha : s.activations[t.creator]? = some a) (hargument : a.argument = q)
    (hpointer : a.isRejected = flagCell) :
    ∃ ls c, c.Refutes F A ∧ Transition.Run (LawfulStep F A) s ls
      ((s.startTask k t q flagCell).put s.activations.length c) := by
  obtain ⟨R, hR⟩ := exists_isReduct hin.coherent hin.agrees t.newExtensionBuild
  -- what attacks the query is not in the extension
  obtain ⟨x, hx, hxq⟩ := hatt
  have hxE : x ∉ listArgs t.newExtensionBuild := fun h => hE.notAttacked ⟨x, h, hxq⟩
  have hdiff := hP.diff_reduct hsub
  rw [← hR.args] at hdiff
  obtain ⟨hans, hfilter⟩ := answers_modelOf hin hR hdiff ⟨x, hx, hxE⟩
  have hsize : ¬ R.vector.length < 2 := by
    intro hsize
    have hxR : x ∈ R.vector := hdiff.subset ⟨hx, hxE⟩
    rw [hR.vector_of_small hin hE hsize, List.mem_singleton] at hxR
    subst hxR
    exact hP.not_mem_of_attacks ⟨x, hx, hxq⟩ hx
  obtain ⟨ls, c, hc, hrun⟩ :=
    exists_taskAnswer hin hR hsize hans hrunning hflag ht ha hargument hpointer
  refine ⟨ls, c, hc.hasModel.refutes hin hR ?_, hrun⟩
  rw [hfilter]
  exact ⟨x, ⟨hx, hxE⟩, hxq⟩

/-- The activations when a task has started and gone on by itself. -/
theorem SearchState.activations_startTask_put {l : List Activation} {t : Task} {x p : ℕ}
    (h : s.activations = l) :
    ((s.startTask k t x p).put s.activations.length c).activations = l ++ [c] := by
  subst h
  show (s.activations ++ [_]).set s.activations.length c = _
  rw [List.set_append_right _ _ le_rfl, Nat.sub_self]
  rfl

/-- The root and a task hand over. -/
theorem exists_torn_root (hin : SearchInput F A q) {T : Set ℕ} (hP : OnTheWay F.att A.args q P)
    (hT : Dung.Admissible F.att A.args T) (hatt : Dung.Attacks F.att T q) (hPT : ¬ P ⊆ T)
    (proof : List ℕ) :
    ∃ ls s, Transition.Run (LawfulStep F A) (.init q proof) ls s ∧ s.torn = true := by
  have hneT : T.Nonempty := by
    obtain ⟨x, hx, -⟩ := hatt
    exact ⟨x, hx⟩
  obtain ⟨R, b, t, ls, s, hR, hfilter, hb, hcreator, hlist, hrun, -, hacts, htasks, hrunning,
      hflag⟩ :=
    exists_secondAnswer hin hP.admissible hP.nonempty hP.notMem hP.spares hT hneT hPT proof
  have hroot : s.activations[t.creator]? = some b := by
    rw [hacts, hcreator]
    rfl
  have hwaiting : s.tasks[0]? = some t := by
    rw [htasks]
    rfl
  -- the task finds its answer while the root has one at hand
  have hE := (SearchInv.run hin hrun).tasks t (List.mem_of_getElem? hwaiting)
  obtain ⟨Q, hQ, hattQ, hsub⟩ := hP.below
  obtain ⟨ls₁, c, hc, hrun₁⟩ := exists_taskRefutes hin hE hQ hattQ (hlist ▸ hsub) hrunning hflag
    hwaiting hroot hb.argument hb.isRejected
  have hb' : b.Refutes F A := hb.refutes hin hR (by rwa [hfilter])
  let s₁ : SearchState := (s.startTask 0 t q flagCell).put s.activations.length c
  have hacts₁ : s₁.activations = [b, c] := SearchState.activations_startTask_put hacts
  obtain ⟨ls₂, s₂, hrun₂, htorn⟩ := exists_torn_of_refutes (s := s₁) (i := 0) (j := 1) (by decide)
    hrunning (congrArg (·[0]?) hacts₁) (congrArg (·[1]?) hacts₁) hb' hc
  exact ⟨_, s₂, (hrun.append hrun₁).append hrun₂, htorn⟩

/-- Two tasks of the root hand over. -/
theorem exists_torn_tasks (hin : SearchInput F A q) {D T : Set ℕ} (hD : OnTheWay F.att A.args q D)
    (hT : OnTheWay F.att A.args q T) (hDT : ¬ D ⊆ T) (proof : List ℕ) :
    ∃ ls s, Transition.Run (LawfulStep F A) (.init q proof) ls s ∧ s.torn = true := by
  obtain ⟨R, b, t, ls, s, hR, hfilter, hb, hcreator, hlist, hrun, -, hacts, htasks, hrunning,
      hflag⟩ :=
    exists_secondAnswer hin hD.admissible hD.nonempty hD.notMem hD.spares hT.admissible hT.nonempty
      hDT proof
  -- the root creates a second task
  obtain ⟨prio, hspawn⟩ := hb.exists_spawn hin hR (by rw [hfilter]; exact hT.nonempty)
    (by rw [hfilter]; exact hT.spares) (by rw [hfilter]; exact hT.notMem)
  rw [extendExtension_nil] at hspawn
  let b₁ : Activation := { b with isFirstCalculation := false, point := .pollLoop }
  let t' : Task := ⟨0, R.vector.filter (modelOf F T), prio⟩
  let s₁ : SearchState := s.apply 0 b₁ (.spawn t'.newExtensionBuild prio)
  have hstep : LawfulStep F A s (.act 0 (.spawn t'.newExtensionBuild prio)) s₁ :=
    lawfulStep_act none hrunning (congrArg (·[0]?) hacts)
      (fun h => absurd (hb.point.symm.trans h) nofun)
      ((Activation.advance_answered hb.point).trans (congrArg some hspawn))
  have hacts₁ : s₁.activations = [b₁] := by
    rw [SearchState.activations_apply, hacts]
    rfl
  have htasks₁ : s₁.tasks = [t, t'] := by
    show s.tasks ++ [t'] = _
    rw [htasks]
    rfl
  have hinv := SearchInv.run hin (hrun.snoc hstep)
  -- both start, and each finds an answer before the other sets the flag
  obtain ⟨Q, hQ, hattQ, hsubQ⟩ := hD.below
  obtain ⟨ls₁, c, hc, hrun₁⟩ := exists_taskRefutes (s := s₁) (k := 0) (t := t) (a := b₁) hin
    (hinv.tasks t (htasks₁ ▸ List.mem_cons_self)) hQ hattQ (hlist ▸ hsubQ) hrunning hflag
    (congrArg (·[0]?) htasks₁) (by rw [hcreator, hacts₁]; rfl) hb.argument hb.isRejected
  let s₂ : SearchState := (s₁.startTask 0 t q flagCell).put s₁.activations.length c
  have hacts₂ : s₂.activations = [b₁, c] := SearchState.activations_startTask_put hacts₁
  have htasks₂ : s₂.tasks = [t'] := congrArg (·.eraseIdx 0) htasks₁
  obtain ⟨Q', hQ', hattQ', hsubQ'⟩ := hT.below
  obtain ⟨ls₂, c', hc', hrun₂⟩ := exists_taskRefutes (s := s₂) (k := 0) (t := t') (a := b₁) hin
    (hinv.tasks t' (htasks₁ ▸ List.mem_cons_of_mem t List.mem_cons_self)) hQ' hattQ'
    (hfilter.symm ▸ hsubQ') hrunning hflag (congrArg (·[0]?) htasks₂)
    (congrArg (·[0]?) hacts₂) hb.argument hb.isRejected
  let s₃ : SearchState := (s₂.startTask 0 t' q flagCell).put s₂.activations.length c'
  have hacts₃ : s₃.activations = [b₁, c, c'] := SearchState.activations_startTask_put hacts₂
  obtain ⟨ls₃, s₄, hrun₃, htorn⟩ := exists_torn_of_refutes (s := s₃) (i := 1) (j := 2) (by decide)
    hrunning (congrArg (·[1]?) hacts₃) (congrArg (·[2]?) hacts₃) hc hc'
  exact ⟨_, s₄, (((hrun.snoc hstep).append hrun₁).append hrun₂).append hrun₃, htorn⟩

/-- **When two assignments can overlap.**  Some schedule ends with a torn list, if and only if
the question is contended. -/
theorem exists_torn_iff (hin : SearchInput F A q) (proof : List ℕ) :
    (∃ ls s, Transition.Run (LawfulStep F A) (.init q proof) ls s ∧ s.Finished ∧ s.torn = true) ↔
      Contended F.att A.args q := by
  constructor
  · rintro ⟨ls, s, hrun, -, htorn⟩
    exact contended_of_torn hin hrun htorn
  · intro h
    have htorn : ∃ ls s, Transition.Run (LawfulStep F A) (.init q proof) ls s ∧
        s.torn = true := by
      rcases h.cases with ⟨E, T, hE, hT, hatt, hnot⟩ | ⟨D, E, hD, hE, hnot⟩
      · exact exists_torn_root hin hE hT hatt hnot proof
      · exact exists_torn_tasks hin hD hE hnot proof
    obtain ⟨ls, s, hrun, htorn⟩ := htorn
    obtain ⟨ls', s', hrest, hfin, -⟩ := (settles hin proof).exists_end_of_run hrun
    exact ⟨_, s', hrun.append hrest, hfin, hrest.invariant (P := fun s => s.torn = true)
      (fun _ _ _ ht hstep => hstep.1.torn_of_true ht) htorn⟩

/-- **A rejection that leaves a torn list.** -/
theorem exists_torn_rejection (hin : SearchInput F A q) (h : Contended F.att A.args q)
    (proof : List ℕ) :
    ∃ ls s, Transition.Run (LawfulStep F A) (.init q proof) ls s ∧ s.Finished ∧
      s.flag = true ∧ s.torn = true := by
  obtain ⟨ls, s, hrun, hfin, htorn⟩ := (exists_torn_iff hin proof).mpr h
  exact ⟨ls, s, hrun, hfin, (flag_iff hin hrun hfin).mpr h.exists_preferred, htorn⟩

/-- In `choiceFramework` only 3 attacks 1, and 3 attacks itself. -/
theorem choice_not_contended : ¬ Contended choiceFramework.af.att choiceActive.args 1 := by
  rintro ⟨E, hE, -⟩
  obtain ⟨T, hT, ⟨x, hx, hatt⟩, -⟩ := hE.below
  have hmem : x ∈ choiceActive.vector := hT.subset hx
  have hthree : ∀ x ∈ choiceActive.vector, choiceFramework.af.att x 1 → x = 3 := by decide
  obtain rfl := hthree x hmem hatt
  exact hT.conflictFree 3 hx 3 hx (by decide)

end AFAnalyzer
