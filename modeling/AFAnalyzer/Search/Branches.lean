import AFAnalyzer.Search.Refinement
import AFAnalyzer.Search.TaskTree
import AFAnalyzer.Tree.Forest

/-!
# No branch is searched twice

Two tasks of a search may have the same extension: it can be reached by adding the same sets in
another order.  What does not happen is that one activation hands the same extension out twice.
An extension that an activation has handed out is `Closed` for it, since none of its candidates
leads above that extension any more, and the next found set is a candidate.

So activations and waiting tasks, with the extensions as labels, are a forest in which no two
entries have the same parent and the same label (`BranchInv`), and an entry is known by the
extensions that lead to it.  These are an ascent of admissible sets from `∅`, which bounds the
number of tasks that are ever created by the number of ascents.
-/

namespace AFAnalyzer

open Dung.Branching SatSolverCadical

variable {F : AF} {A : VectorBitSet} {q : ℕ} {X : Set ℕ} {L : List ℕ} {proof : List ℕ}
  {ls : List Action} {ℓ : Action} {s s' : SearchState} {i k : ℕ}

/-! ## Extensions that have been handed out -/

namespace Activation

variable {a b : Activation} {e : Effect} {flag : Bool} {answer : Option (ℕ → Bool)}

/-- No candidate of the activation leads above `X`, nor is it above `X` that the activation
hands over. -/
structure Closed (F : AF) (A : VectorBitSet) (a : Activation) (X : Set ℕ) : Prop where
  candidates : ∀ N, a.node? F A = some N → ∀ S ∈ N.candidates, ¬ X ⊆ N.extension ∪ S
  handsOver : a.point.HandsOver →
    ¬ X ⊆ listArgs (extendExtension a.extensionBuild a.initialSet)

/-- An activation with a node hands nothing over. -/
theorem not_handsOver_of_some {N : Node ℕ} (h : a.node? F A = some N) : ¬ a.point.HandsOver := by
  rintro (hp | hp)
  · rw [node?_of_done (Or.inl hp)] at h
    exact absurd h.symm (Option.some_ne_none N)
  · rw [node?_of_done (Or.inr (Or.inl hp))] at h
    exact absurd h.symm (Option.some_ne_none N)

theorem closed_of_done (h : a.point = .leaving ∨ a.point = .returned) : a.Closed F A X where
  candidates := by
    intro N hN
    rw [node?_of_done (Or.inr (Or.inr h))] at hN
    exact absurd hN.symm (Option.some_ne_none N)
  handsOver := by
    rintro (hp | hp)
    all_goals
      rcases h with h | h
      all_goals exact absurd (h.symm.trans hp) nofun

/-- The set that is handed over is closed against. -/
theorem closed_of_handsOver (hp : a.point.HandsOver)
    (h : ¬ X ⊆ listArgs (extendExtension a.extensionBuild a.initialSet)) : a.Closed F A X where
  candidates := fun _ hN => absurd hp (not_handsOver_of_some hN)
  handsOver := fun _ => h

theorem Closed.of_node {N : Node ℕ} (h : a.Closed F A X) (ha : a.node? F A = some N)
    (hb : b.node? F A = some N) : b.Closed F A X where
  candidates := by
    intro M hM
    rw [hb] at hM
    exact h.candidates M (ha.trans hM)
  handsOver := fun hp => absurd hp (not_handsOver_of_some hb)

/-- The set that is found next was not closed. -/
theorem Ok.not_closed_found (hok : a.Ok F A q) (hin : SearchInput F A q) (hlog : a.Logged F)
    (hpoint : a.point = .answered) (hsat : a.hasSolution = true) :
    ¬ a.Closed F A
      (listArgs (extendExtension a.extensionBuild (getSetFromSolver a.solver a.reduct))) := by
  intro h
  refine h.candidates _ (node?_of_answered hpoint) _
    (hok.found_mem_admitted hin hlog hpoint hsat) ?_
  rw [listArgs_extendExtension]

/-- Going on after a found set opens nothing. -/
theorem Closed.next (h : a.Closed F A X) (hok : a.Ok F A q) (hin : SearchInput F A q)
    (hpoint : a.point = .answered) (hsat : a.hasSolution = true)
    (hb : b.node? F A =
      some ⟨listArgs a.extensionBuild, a.admitted F A a.nextSolver.cadical.clauses⟩) :
    b.Closed F A X where
  candidates := by
    intro N hN S hS
    obtain rfl := Option.some.inj (hb.symm.trans hN)
    have hnext := hok.admitted_nextSolver hin hpoint hsat
    exact h.candidates _ (node?_of_answered hpoint) S (hnext ▸ hS).1
  handsOver := fun hp => absurd hp (not_handsOver_of_some hb)

/-- **A found set is closed from then on.** -/
theorem Ok.closed_found (hok : a.Ok F A q) (hin : SearchInput F A q)
    (hpoint : a.point = .answered) (hsat : a.hasSolution = true)
    (hb : b.node? F A =
      some ⟨listArgs a.extensionBuild, a.admitted F A a.nextSolver.cadical.clauses⟩) :
    b.Closed F A
      (listArgs (extendExtension a.extensionBuild (getSetFromSolver a.solver a.reduct))) where
  candidates := by
    intro N hN S hS hle
    obtain rfl := Option.some.inj (hb.symm.trans hN)
    obtain ⟨-, -, -, -, hfound⟩ := hok.found hin hpoint hsat
    have hnext := hok.admitted_nextSolver hin hpoint hsat
    refine (hnext ▸ hS).2 fun x hx => ?_
    rw [listArgs_extendExtension] at hle
    -- the found set is disjoint from the extension
    rcases hle (Or.inr hx) with hE | hS
    · exact absurd hE (hfound.notMem_extension hx)
    · exact hS
  handsOver := fun hp => absurd hp (not_handsOver_of_some hb)

/-- **What has been handed out stays closed.** -/
theorem Closed.advance (h : a.Closed F A X) (hok : a.Ok F A q) (hin : SearchInput F A q)
    (hlog : a.Logged F) (hadv : Advanced F A flag answer a b e) : b.Closed F A X := by
  cases hadv with
  | cutOff _ _ _ _ point => exact closed_of_done (Or.inl point)
  | entered point => exact h.of_node (node?_of_start (Or.inl point)) (node?_of_start (Or.inr rfl))
  | small => exact closed_of_done (Or.inl rfl)
  | encoded point build =>
    have hnode := node?_of_start (F := F) (A := A) (Or.inr point)
    exact h.of_node hnode ((node?_encode hin point build).trans hnode)
  | armed point =>
    exact h.of_node (node?_of_looping (Or.inl point)) (node?_of_looping (Or.inr (Or.inl rfl)))
  | call point =>
    exact h.of_node (node?_of_looping (Or.inr (Or.inl point))) (node?_of_answered rfl)
  | exhausted => exact closed_of_done (Or.inl rfl)
  | onlyEmpty => exact closed_of_done (Or.inl rfl)
  | reject point sat =>
    refine closed_of_handsOver (Or.inl rfl) ?_
    rw [listArgs_extendExtension]
    exact h.candidates _ (node?_of_answered point) _ (hok.found_mem_admitted hin hlog point sat)
  | abort point sat =>
    have hback : (if a.isRejectedTmp = true then Point.leaving else .loopHead) = .loopHead := by
      rw [hok.tmp (Or.inr point)]
      rfl
    exact h.next hok hin point sat (node?_of_looping (Or.inr (Or.inl hback)))
  | spawn point sat found passes omits priority build =>
    obtain rfl := hok.reduct_eq point build
    exact h.next hok hin point sat (node?_of_looping (Or.inr (Or.inr rfl)))
  | again point =>
    obtain ⟨-, -, hsat⟩ := hok.pollLoop point
    exact h.of_node (node?_of_looping (Or.inr (Or.inr point)))
      (node?_of_looping (Or.inr (Or.inl (by rw [hsat]; rfl))))
  | handOver point => exact closed_of_handsOver (Or.inr rfl) (h.handsOver (Or.inl point))
  | assigned => exact closed_of_done (Or.inl rfl)
  | ret => exact closed_of_done (Or.inr rfl)
  | fault why => exact absurd why (hok.not_faulty hin)

/-- A step that creates a task hands out what was not closed before, and closes it. -/
theorem Ok.spawn_closed (hok : a.Ok F A q) (hin : SearchInput F A q) (hlog : a.Logged F)
    {prio : ℕ} (hadv : Advanced F A flag answer a b (.spawn L prio)) :
    ¬ a.Closed F A (listArgs L) ∧ b.Closed F A (listArgs L) := by
  cases hadv with
  | spawn point sat found passes omits priority build =>
    obtain rfl := hok.reduct_eq point build
    exact ⟨hok.not_closed_found hin hlog point sat,
      hok.closed_found hin point sat (node?_of_looping (Or.inr (Or.inr rfl)))⟩

end Activation

/-! ## The forest -/

/-- The creator and the extension of an activation. -/
def Activation.entry (a : Activation) : Option ℕ × Set ℕ := (a.creator, listArgs a.extensionBuild)

/-- The creator and the extension of a waiting task. -/
def Task.entry (t : Task) : Option ℕ × Set ℕ := (some t.creator, listArgs t.newExtensionBuild)

namespace SearchState

/-- The activations and the waiting tasks as a forest. -/
def entries (s : SearchState) : List (Option ℕ × Set ℕ) :=
  s.activations.map Activation.entry ++ s.tasks.map Task.entry

variable {a b : Activation} {e : Effect}

theorem length_entries : s.entries.length = s.activations.length + s.tasks.length := by
  rw [entries, List.length_append, List.length_map, List.length_map]

theorem entry_cases {y : Option ℕ × Set ℕ} (h : s.entries[i]? = some y) :
    (∃ a, s.activations[i]? = some a ∧ y = a.entry) ∨
      s.activations.length ≤ i ∧ ∃ t ∈ s.tasks, y = t.entry := by
  rw [entries, List.getElem?_append] at h
  split at h
  · rw [List.getElem?_map, Option.map_eq_some_iff] at h
    obtain ⟨a, ha, rfl⟩ := h
    exact Or.inl ⟨a, ha, rfl⟩
  · next hge =>
    rw [List.length_map, not_lt] at hge
    obtain ⟨t, ht, rfl⟩ := List.mem_map.mp (List.mem_of_getElem? h)
    exact Or.inr ⟨hge, t, ht, rfl⟩

/-- A step of an activation keeps its entry. -/
theorem map_activations_apply (ha : s.activations[i]? = some a)
    (hsame : b.argument = a.argument ∧ b.isRejected = a.isRejected ∧
      b.extensionBuild = a.extensionBuild ∧ b.creator = a.creator) :
    (s.apply i b e).activations.map Activation.entry = s.activations.map Activation.entry := by
  have hentry : b.entry = a.entry := by
    rw [Activation.entry, hsame.2.2.1, hsame.2.2.2, Activation.entry]
  obtain ⟨hi, rfl⟩ := List.getElem?_eq_some_iff.mp ha
  rw [activations_apply, List.map_set, hentry, ← List.map_set, List.set_getElem_self]

theorem entries_apply (ha : s.activations[i]? = some a)
    (hsame : b.argument = a.argument ∧ b.isRejected = a.isRejected ∧
      b.extensionBuild = a.extensionBuild ∧ b.creator = a.creator)
    (he : ∀ L prio, e ≠ .spawn L prio) : (s.apply i b e).entries = s.entries := by
  have htasks : (s.apply i b e).tasks = s.tasks := by
    cases e with
    | spawn L prio => exact absurd rfl (he L prio)
    | _ => rfl
  rw [entries, map_activations_apply ha hsame, htasks]
  rfl

theorem entries_apply_spawn {prio : ℕ} (ha : s.activations[i]? = some a)
    (hsame : b.argument = a.argument ∧ b.isRejected = a.isRejected ∧
      b.extensionBuild = a.extensionBuild ∧ b.creator = a.creator) :
    (s.apply i b (.spawn L prio)).entries = s.entries ++ [(some i, listArgs L)] := by
  rw [entries, map_activations_apply ha hsame, entries, List.append_assoc]
  show _ ++ (s.tasks ++ [(⟨i, L, prio⟩ : Task)]).map Task.entry = _
  rw [List.map_append]
  rfl

/-- A task that starts keeps its entry, at another place. -/
theorem entries_startTask {t : Task} {x p : ℕ} (ht : s.tasks[k]? = some t) :
    (s.startTask k t x p).entries.Perm s.entries := by
  obtain ⟨hk, rfl⟩ := List.getElem?_eq_some_iff.mp ht
  have hperm := (List.getElem_cons_eraseIdx_perm hk).map Task.entry
  rw [entries, activations_startTask, tasks_startTask, List.map_append, List.append_assoc]
  exact hperm.append_left _

end SearchState

/-- The tasks that the steps of a run create. -/
def spawned (ls : List Action) : List (Option ℕ × Set ℕ) :=
  ls.filterMap fun
    | .act i (.spawn L _) => some (some i, listArgs L)
    | _ => none

theorem entries_init : (SearchState.init q proof).entries = [(none, ∅)] := by
  show [((none : Option ℕ), listArgs [])] ++ [] = _
  rw [listArgs_nil, List.append_nil]

open SearchState in
/-- A step loses no task and makes none twice. -/
theorem Step.entries_perm (h : Step F A s ℓ s') : s'.entries.Perm (s.entries ++ spawned [ℓ]) := by
  cases h with
  | @act i a b e answer running active answers advance =>
    have hsame := (Activation.advanced_of_advance advance).parameters
    cases e with
    | spawn L prio => exact List.Perm.of_eq (entries_apply_spawn active hsame)
    | _ =>
      refine List.Perm.of_eq ((entries_apply active hsame (by simp)).trans ?_)
      exact (List.append_nil _).symm
  | start _ waiting =>
    refine (entries_startTask waiting).trans (List.Perm.of_eq ?_)
    exact (List.append_nil _).symm

/-- **No task is lost, and none is doubled.**  Activations and waiting tasks are the start of
the search and the tasks created since. -/
theorem entries_perm_of_run (h : Transition.Run (LawfulStep F A) s ls s') :
    s'.entries.Perm (s.entries ++ spawned ls) := by
  induction h with
  | nil s => exact List.Perm.of_eq (List.append_nil _).symm
  | @cons s s₁ s₂ ℓ ls first _ ih =>
    refine ih.trans ?_
    have hcons : spawned (ℓ :: ls) = spawned [ℓ] ++ spawned ls := by
      rw [spawned, spawned, spawned, ← List.filterMap_append, List.singleton_append]
    rw [hcons, ← List.append_assoc]
    exact first.1.entries_perm.append_right _

/-- **What has been handed out is closed, and handed out once.** -/
structure BranchInv (F : AF) (A : VectorBitSet) (s : SearchState) : Prop where
  nodup : s.entries.Nodup
  root : ∀ X, (none, X) ∈ s.entries → X = ∅
  closed : ∀ j X, (some j, X) ∈ s.entries →
    ∃ c, s.activations[j]? = some c ∧ c.Closed F A X

theorem branchInv_init : BranchInv F A (.init q proof) := by
  refine ⟨?_, fun X hX => ?_, fun j X hX => ?_⟩
  all_goals rw [entries_init] at *
  · exact List.nodup_singleton _
  · exact congrArg Prod.snd (List.mem_singleton.mp hX)
  · exact absurd (List.mem_singleton.mp hX) (by simp)

open SearchState in
theorem BranchInv.step (hin : SearchInput F A q) (hinv : SearchInv F A q s)
    (hlog : ∀ (i : ℕ) (a : Activation), s.activations[i]? = some a → a.Logged F)
    (h : BranchInv F A s) (hstep : LawfulStep F A s ℓ s') : BranchInv F A s' := by
  obtain ⟨hstep, -⟩ := hstep
  cases hstep with
  | @act i a b e answer running active answers advance =>
    have hadv := Activation.advanced_of_advance advance
    have hok := hinv.activations i a active
    have hlt := (List.getElem?_eq_some_iff.mp active).1
    -- what was closed stays closed
    have hclosed : ∀ j X, (some j, X) ∈ s.entries →
        ∃ c, (s.apply i b e).activations[j]? = some c ∧ c.Closed F A X := by
      intro j X hX
      obtain ⟨c, hc, hcX⟩ := h.closed j X hX
      by_cases hji : i = j
      · subst hji
        obtain rfl := Option.some.inj (active.symm.trans hc)
        exact ⟨b, List.getElem?_set_self hlt, hcX.advance hok hin (hlog i a active) hadv⟩
      · exact ⟨c, (List.getElem?_set_ne hji).trans hc, hcX⟩
    by_cases hspawn : ∃ L prio, e = .spawn L prio
    · obtain ⟨L, prio, rfl⟩ := hspawn
      obtain ⟨hopen, hnow⟩ := hok.spawn_closed hin (hlog i a active) hadv
      have hentries : (s.apply i b (.spawn L prio)).entries = s.entries ++ [(some i, listArgs L)] :=
        entries_apply_spawn active hadv.parameters
      refine ⟨?_, fun X hX => ?_, fun j X hX => ?_⟩
      all_goals rw [hentries] at *
      · refine List.nodup_append.mpr ⟨h.nodup, List.nodup_singleton _, ?_⟩
        rintro y hy z hz rfl
        obtain rfl := List.mem_singleton.mp hz
        obtain ⟨c, hc, hcL⟩ := h.closed i _ hy
        obtain rfl := Option.some.inj (active.symm.trans hc)
        exact hopen hcL
      · rcases List.mem_append.mp hX with hX | hX
        · exact h.root X hX
        · exact absurd (List.mem_singleton.mp hX) (by simp)
      · rcases List.mem_append.mp hX with hX | hX
        · exact hclosed j X hX
        · obtain ⟨hj, rfl⟩ := Prod.mk.inj (List.mem_singleton.mp hX)
          obtain rfl := Option.some.inj hj
          exact ⟨b, List.getElem?_set_self hlt, hnow⟩
    · push Not at hspawn
      have hentries := entries_apply active hadv.parameters hspawn
      refine ⟨?_, ?_, ?_⟩
      all_goals rw [hentries]
      · exact h.nodup
      · exact h.root
      · exact hclosed
  | @start k x p t creator running waiting created captured =>
    have hperm := entries_startTask (x := x) (p := p) waiting
    refine ⟨hperm.nodup_iff.mpr h.nodup, fun X hX => h.root X (hperm.mem_iff.mp hX),
      fun j X hX => ?_⟩
    obtain ⟨c, hc, hcX⟩ := h.closed j X (hperm.mem_iff.mp hX)
    exact ⟨c, (List.getElem?_append_left (List.getElem?_eq_some_iff.mp hc).1).trans hc, hcX⟩

theorem BranchInv.run (hin : SearchInput F A q)
    (h : Transition.Run (LawfulStep F A) (.init q proof) ls s) : BranchInv F A s := by
  have hlogged := activationInvariant_logged hin
  refine (SearchInv.induction (P := fun s => (∀ (i : ℕ) (a : Activation),
    s.activations[i]? = some a → a.InLoop F ∧ a.Logged F) ∧ BranchInv F A s) hin ?_
    ⟨hlogged.init, branchInv_init⟩ h).2
  intro s ℓ s' hinv hs hstep
  exact ⟨hlogged.step hinv hs.1 hstep,
    hs.2.step hin hinv (fun i a ha => (hs.1 i a ha).2) hstep⟩

/-! ## The branches -/

/-- Creators stand before what they create. -/
theorem TreeInv.ordered (h : TreeInv F A s) : Forest.Ordered s.entries := by
  intro i j X hX
  rcases SearchState.entry_cases hX with ⟨a, ha, heq⟩ | ⟨hge, t, ht, heq⟩
  · obtain ⟨hcreator, -⟩ := Prod.mk.inj heq
    exact (h.activations i a j ha hcreator.symm).1
  · obtain ⟨hcreator, -⟩ := Prod.mk.inj heq
    obtain ⟨c, hc, -⟩ := h.tasks t ht
    rw [Option.some.inj hcreator]
    exact (List.getElem?_eq_some_iff.mp hc).1.trans_le hge

/-- What an entry was made from. -/
theorem entry_parent (htree : TreeInv F A s) {j : ℕ} (h : s.entries[i]? = some (some j, X)) :
    ∃ c, s.activations[j]? = some c ∧ listArgs c.extensionBuild ⊂ X := by
  rcases SearchState.entry_cases h with ⟨a, ha, heq⟩ | ⟨-, t, ht, heq⟩
  · obtain ⟨hcreator, rfl⟩ := Prod.mk.inj heq
    obtain ⟨-, c, hc, hdeep⟩ := htree.activations i a j ha hcreator.symm
    exact ⟨c, hc, hdeep.extension⟩
  · obtain ⟨hcreator, rfl⟩ := Prod.mk.inj heq
    obtain rfl := Option.some.inj hcreator
    obtain ⟨c, hc, hdeep⟩ := htree.tasks t ht
    exact ⟨c, hc, hdeep.extension⟩

/-- The extension of an entry. -/
theorem entry_extension (hinv : SearchInv F A q s) {y : Option ℕ × Set ℕ}
    (h : s.entries[i]? = some y) : Dung.Admissible F.att A.args y.2 ∧ q ∉ y.2 ∧
      ¬ Dung.Attacks F.att y.2 q := by
  have hext : ∀ {E}, ExtensionOk F A q E → Dung.Admissible F.att A.args (listArgs E) ∧
      q ∉ listArgs E ∧ ¬ Dung.Attacks F.att (listArgs E) q := fun hE =>
    ⟨hE.admissible, hE.notMem, hE.notAttacked⟩
  rcases SearchState.entry_cases h with ⟨a, ha, rfl⟩ | ⟨-, t, ht, rfl⟩
  · exact hext (hinv.activations i a ha).extension
  · exact hext (hinv.tasks t ht)

/-- **The branch of an entry is an ascent**, and ends with its extension. -/
theorem BranchInv.ascent (hinv : SearchInv F A q s) (htree : TreeInv F A s)
    (h : BranchInv F A s) {p : List (Set ℕ)} (hp : Forest.Branch s.entries i p) :
    Ascent F.att A.args q p := by
  induction hp with
  | @root i X entry =>
    obtain rfl := h.root X (List.mem_of_getElem? entry)
    refine ⟨List.pairwise_singleton _ _, fun E hE => ?_, rfl⟩
    obtain rfl := List.mem_singleton.mp hE
    exact entry_extension hinv entry
  | @child i j X p entry parent ih =>
    obtain ⟨c, hc, hlt⟩ := entry_parent htree entry
    -- the branch of the creator starts with the extension of the creator
    obtain ⟨rest, rfl⟩ : ∃ rest, p = listArgs c.extensionBuild :: rest := by
      have hentry : ∀ {y}, s.entries[j]? = some y → y = c.entry := by
        intro y hy
        rcases SearchState.entry_cases hy with ⟨c', hc', rfl⟩ | ⟨hge, -⟩
        · rw [Option.some.inj (hc'.symm.trans hc)]
        · exact absurd (List.getElem?_eq_some_iff.mp hc).1 (not_lt.mpr hge)
      cases parent with
      | root entry' => exact ⟨_, congrArg (· :: []) (Prod.mk.inj (hentry entry')).2⟩
      | child entry' => exact ⟨_, congrArg (· :: _) (Prod.mk.inj (hentry entry')).2⟩
    exact ih.cons hlt (entry_extension hinv entry)

/-- **No branch is searched twice.**  In every state of every run in which each task sees the
argument and the flag of its creator, the activations and the waiting tasks are the start of the
search and all tasks created so far, each one once.  They are known by the extensions that lead to
them from the start, which are an ascent of admissible sets that neither contain nor attack the
query; so there are never more of them than ascents. -/
theorem search_branches (W : WellFormed) (A : ActiveArgs W.n) {q : ℕ}
    (hq : q ∈ A.vector) (hself : ¬ W.af.att q q) {proof : List ℕ} {ls : List Action}
    {s : SearchState}
    (h : Transition.Run (LawfulStep W.af A.toVectorBitSet) (.init q proof) ls s) :
    s.entries.Perm ((none, ∅) :: spawned ls) ∧
    (∀ i < s.entries.length, ∃ p, Forest.Branch s.entries i p ∧
      Ascent W.af.att A.args q p ∧ ∀ j, Forest.Branch s.entries j p → j = i) ∧
    s.activations.length + s.tasks.length ≤ {p | Ascent W.af.att A.args q p}.ncard := by
  have hin := W.searchInput A hq hself
  have hinv := SearchInv.run hin h
  have htree := TreeInv.run hin h
  have hbranch := BranchInv.run hin h
  have hperm := entries_perm_of_run h
  rw [entries_init, List.singleton_append] at hperm
  refine ⟨hperm, fun i hi => ?_, ?_⟩
  · obtain ⟨p, hp⟩ := htree.ordered.exists_branch i hi
    exact ⟨p, hp, hbranch.ascent hinv htree hp, fun j hj => hj.index_eq hbranch.nodup hp⟩
  · rw [← SearchState.length_entries]
    exact Forest.length_le_ncard htree.ordered hbranch.nodup
      (finite_ascents (List.finite_toSet A.vector)) fun i p hp => hbranch.ascent hinv htree hp

theorem search_branches_choice :
    ∃ ls s, Transition.Run (LawfulStep choiceFramework.af choiceActive.toVectorBitSet)
        (.init 1 []) ls s ∧ s.Finished ∧ s.entries.Perm ((none, ∅) :: spawned ls) ∧
      s.activations.length + s.tasks.length ≤
        {p | Ascent choiceFramework.af.att choiceActive.args 1 p}.ncard := by
  have hin := choiceFramework.searchInput choiceActive (q := 1) (by decide) (by decide)
  obtain ⟨ls, s, hrun, -, hfin, -⟩ := (settles hin []).exists_end
  obtain ⟨hperm, -, hle⟩ :=
    search_branches choiceFramework choiceActive (by decide) (by decide) hrun
  exact ⟨ls, s, hrun, hfin, hperm, hle⟩

end AFAnalyzer
