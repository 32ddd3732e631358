import AFAnalyzer.Dung.Reduct
import AFAnalyzer.Transition.Run
import AFAnalyzer.Tree.Forest
import Mathlib.Data.Multiset.AddSub

/-!
# Search by branching

To decide whether some preferred set omits an argument `q` one may build admissible sets from
below.  A node of the search is an admissible set `E` with the sets that may still be added to
it, its candidates: at first all nonempty admissible sets of its reduct.  A candidate `S` is
looked at once.  If it attacks `q`, the question is answered; if it contains `q`, nothing above
`E ∪ S` is of interest; otherwise `E ∪ S` becomes a node of its own.  Either way the candidates
that include `S` need not be looked at any more, since what they lead to lies above `E ∪ S`.
A set to which nothing can be added is preferred, and answers the question as well.

`Step` is this search, with any order of the nodes and of the candidates.  At every moment the
answer, if there is one, is right, and as long as there is none every preferred set that omits
`q` lies ahead of some node (`Inv.run`); so the answer is right in the end
(`Inv.rejected_iff`).

The sets that a branch of the search has passed form an `Ascent`.  Over a finite set there are
finitely many (`finite_ascents`).

Two nodes may have found a set that attacks `q` at the same time only if the question is
`Contended`: some set on the way to such an answer is not the only one, or some answer does not
lie above it.
-/

namespace Dung

variable {α : Type*}

/-- What may be added to `E`. -/
def additions (att : α → α → Prop) (A E : Set α) : Set (Set α) :=
  {S | Admissible att (reduct att A E) S ∧ S.Nonempty}

variable {att : α → α → Prop} {A E P S : Set α} {q : α}

theorem admissible_union_of_mem_additions (hE : Admissible att A E) (hS : S ∈ additions att A E) :
    Admissible att A (E ∪ S) := hE.union_of_reduct hS.1

/-- Nothing can be added to a preferred set. -/
theorem Preferred.additions_eq_empty (hP : Preferred att A P) : additions att A P = ∅ := by
  rw [Set.eq_empty_iff_forall_notMem]
  rintro S ⟨hS, x, hx⟩
  have heq := hP.eq_of_subset (hP.admissible.union_of_reduct hS) Set.subset_union_left
  refine (hS.subset hx).2.1 ?_
  rw [← heq]
  exact Or.inr hx

/-- A set to which nothing can be added is preferred. -/
theorem preferred_of_additions_eq_empty (hE : Admissible att A E) (h : additions att A E = ∅) :
    Preferred att A E := by
  refine preferred_of_reduct_trivial hE fun T hT => ?_
  by_contra hne
  have hmem : T ∈ additions att A E := ⟨hT, Set.nonempty_iff_ne_empty.mpr hne⟩
  rw [h] at hmem
  exact hmem

/-- What an admissible set has above `E`. -/
theorem Admissible.diff_mem_additions (hP : Admissible att A P) (hEP : E ⊆ P) (hne : P ≠ E) :
    P \ E ∈ additions att A E := by
  refine ⟨hP.diff_reduct hEP, ?_⟩
  by_contra hempty
  rw [Set.not_nonempty_iff_eq_empty, Set.sdiff_eq_empty] at hempty
  exact hne (Set.Subset.antisymm hempty hEP)

namespace Branching

/-- An admissible set, and the sets that may still be added to it. -/
structure Node (α : Type*) where
  extension : Set α
  candidates : Set (Set α)

/-- The node of an admissible set at which nothing has been looked at. -/
def Node.fresh (att : α → α → Prop) (A E : Set α) : Node α := ⟨E, additions att A E⟩

/-- The node after `S` has been looked at. -/
def Node.exclude (N : Node α) (S : Set α) : Node α :=
  ⟨N.extension, {T ∈ N.candidates | ¬ S ⊆ T}⟩

/-- Whether the question has been answered, and the nodes that are left. -/
structure State (α : Type*) where
  rejected : Bool
  nodes : Multiset (Node α)

/-- The search starts with the empty set. -/
def State.init (att : α → α → Prop) (A : Set α) : State α := ⟨false, {Node.fresh att A ∅}⟩

/-- What a step does. -/
inductive Move
  | branch | prune | refute | maximal | close | drop
  deriving DecidableEq

/-- **One step of the search.** -/
inductive Step (att : α → α → Prop) (A : Set α) (q : α) : State α → Move → State α → Prop
  | branch {r : Bool} {N : Node α} {rest : Multiset (Node α)} {S : Set α}
      (candidate : S ∈ N.candidates) (omits : q ∉ S) (spares : ¬ Attacks att S q) :
      Step att A q ⟨r, N ::ₘ rest⟩ .branch
        ⟨r, Node.fresh att A (N.extension ∪ S) ::ₘ N.exclude S ::ₘ rest⟩
  | prune {r : Bool} {N : Node α} {rest : Multiset (Node α)} {S : Set α}
      (candidate : S ∈ N.candidates) (contains : q ∈ S) :
      Step att A q ⟨r, N ::ₘ rest⟩ .prune ⟨r, N.exclude S ::ₘ rest⟩
  | refute {r : Bool} {N : Node α} {rest : Multiset (Node α)} {S : Set α}
      (candidate : S ∈ N.candidates) (attacks : Attacks att S q) :
      Step att A q ⟨r, N ::ₘ rest⟩ .refute ⟨true, rest⟩
  | maximal {r : Bool} {N : Node α} {rest : Multiset (Node α)}
      (none : additions att A N.extension = ∅) :
      Step att A q ⟨r, N ::ₘ rest⟩ .maximal ⟨true, rest⟩
  | close {r : Bool} {N : Node α} {rest : Multiset (Node α)} (none : N.candidates = ∅)
      (some : (additions att A N.extension).Nonempty) :
      Step att A q ⟨r, N ::ₘ rest⟩ .close ⟨r, rest⟩
  | drop {N : Node α} {rest : Multiset (Node α)} :
      Step att A q ⟨true, N ::ₘ rest⟩ .drop ⟨true, rest⟩

/-! ## Nodes -/

/-- The set of a node is admissible and omits the query. -/
structure Node.Ok (att : α → α → Prop) (A : Set α) (q : α) (N : Node α) : Prop where
  admissible : Admissible att A N.extension
  notMem : q ∉ N.extension
  subset : N.candidates ⊆ additions att A N.extension

/-- The set `P` lies ahead of a node. -/
structure Node.Ahead (P : Set α) (N : Node α) : Prop where
  above : N.extension ⊆ P
  reach : P = N.extension ∨ P \ N.extension ∈ N.candidates

variable {N : Node α} {rest : Multiset (Node α)} {x y : State α} {m : Move} {ms : List Move}

theorem Node.ok_fresh (hE : Admissible att A E) (hq : q ∉ E) : (Node.fresh att A E).Ok att A q :=
  ⟨hE, hq, subset_rfl⟩

theorem Node.Ok.exclude (h : N.Ok att A q) (S : Set α) : (N.exclude S).Ok att A q :=
  ⟨h.admissible, h.notMem, fun _ hT => h.subset hT.1⟩

theorem Node.Ok.union (h : N.Ok att A q) (hS : S ∈ N.candidates) :
    Admissible att A (N.extension ∪ S) :=
  admissible_union_of_mem_additions h.admissible (h.subset hS)

theorem Node.ahead_fresh (hP : Preferred att A P) (hEP : E ⊆ P) :
    (Node.fresh att A E).Ahead P := by
  refine ⟨hEP, ?_⟩
  by_cases heq : P = E
  · exact Or.inl heq
  · exact Or.inr (hP.admissible.diff_mem_additions hEP heq)

/-- **Looking at a candidate loses no preferred set.**  It stays ahead of the node, or it lies
above the candidate. -/
theorem Node.Ahead.exclude (h : N.Ahead P) (hok : N.Ok att A q) (hP : Preferred att A P)
    (hS : S ∈ N.candidates) : (N.exclude S).Ahead P ∨ N.extension ∪ S ⊆ P := by
  rcases h.reach with heq | hmem
  · -- nothing can be added to a preferred set
    have hadd := hok.subset hS
    rw [← heq, hP.additions_eq_empty] at hadd
    exact absurd hadd (Set.notMem_empty S)
  · by_cases hsub : S ⊆ P \ N.extension
    · exact Or.inr (Set.union_subset h.above fun a ha => (hsub ha).1)
    · exact Or.inl ⟨h.above, Or.inr ⟨hmem, hsub⟩⟩

/-! ## The invariant -/

/-- **What holds at every moment.** -/
structure Inv (att : α → α → Prop) (A : Set α) (q : α) (x : State α) : Prop where
  nodes : ∀ N ∈ x.nodes, N.Ok att A q
  sound : x.rejected = true → ∃ P, Preferred att A P ∧ q ∉ P
  covers : x.rejected = false → ∀ P, Preferred att A P → q ∉ P → ∃ N ∈ x.nodes, N.Ahead P

theorem inv_init : Inv att A q (.init att A) where
  nodes := by
    intro N hN
    rw [Multiset.mem_singleton.mp hN]
    exact Node.ok_fresh admissible_empty (Set.notMem_empty q)
  sound := fun h => absurd h Bool.false_ne_true
  covers := fun _ P hP _ =>
    ⟨_, Multiset.mem_singleton_self _, Node.ahead_fresh hP (Set.empty_subset P)⟩

/-- Sets that lie ahead of another node stay there. -/
theorem covers_of_rest {nodes : Multiset (Node α)} (hrest : ∀ M ∈ rest, M ∈ nodes)
    (hnode : N.Ahead P → ∃ M ∈ nodes, M.Ahead P) (h : ∃ M ∈ N ::ₘ rest, M.Ahead P) :
    ∃ M ∈ nodes, M.Ahead P := by
  obtain ⟨M, hM, hahead⟩ := h
  rcases Multiset.mem_cons.mp hM with rfl | hM
  · exact hnode hahead
  · exact ⟨M, hrest M hM, hahead⟩

/-- **The step lemma.** -/
theorem Inv.step (h : Inv att A q x) (hstep : Step att A q x m y) : Inv att A q y := by
  cases hstep with
  | @branch r N rest S candidate omits spares =>
    have hN := h.nodes N (Multiset.mem_cons_self N rest)
    refine ⟨fun M hM => ?_, h.sound, fun hr P hP hqP => ?_⟩
    · rcases Multiset.mem_cons.mp hM with rfl | hM
      · exact Node.ok_fresh (hN.union candidate) fun hq => hq.elim hN.notMem omits
      · rcases Multiset.mem_cons.mp hM with rfl | hM
        · exact hN.exclude S
        · exact h.nodes M (Multiset.mem_cons_of_mem hM)
    · refine covers_of_rest (fun M hM => Multiset.mem_cons_of_mem (Multiset.mem_cons_of_mem hM))
        (fun hahead => ?_) (h.covers hr P hP hqP)
      rcases hahead.exclude hN hP candidate with hahead | hsub
      · exact ⟨_, Multiset.mem_cons_of_mem (Multiset.mem_cons_self _ _), hahead⟩
      · exact ⟨_, Multiset.mem_cons_self _ _, Node.ahead_fresh hP hsub⟩
  | @prune r N rest S candidate contains =>
    have hN := h.nodes N (Multiset.mem_cons_self N rest)
    refine ⟨fun M hM => ?_, h.sound, fun hr P hP hqP => ?_⟩
    · rcases Multiset.mem_cons.mp hM with rfl | hM
      · exact hN.exclude S
      · exact h.nodes M (Multiset.mem_cons_of_mem hM)
    · refine covers_of_rest (fun M hM => Multiset.mem_cons_of_mem hM) (fun hahead => ?_)
        (h.covers hr P hP hqP)
      rcases hahead.exclude hN hP candidate with hahead | hsub
      · exact ⟨_, Multiset.mem_cons_self _ _, hahead⟩
      · exact absurd (hsub (Or.inr contains)) hqP
  | @refute r N rest S candidate attacks =>
    have hN := h.nodes N (Multiset.mem_cons_self N rest)
    refine ⟨fun M hM => h.nodes M (Multiset.mem_cons_of_mem hM), fun _ => ?_,
      fun hr => absurd hr Bool.noConfusion⟩
    obtain ⟨P, hsub, hP⟩ := exists_preferred_of_admissible (hN.union candidate)
    exact ⟨P, hP, hP.not_mem_of_attacks (Set.subset_union_right.trans hsub) attacks⟩
  | @maximal r N rest none =>
    have hN := h.nodes N (Multiset.mem_cons_self N rest)
    exact ⟨fun M hM => h.nodes M (Multiset.mem_cons_of_mem hM),
      fun _ => ⟨N.extension, preferred_of_additions_eq_empty hN.admissible none, hN.notMem⟩,
      fun hr => absurd hr Bool.noConfusion⟩
  | @close r N rest none some =>
    refine ⟨fun M hM => h.nodes M (Multiset.mem_cons_of_mem hM), h.sound, fun hr P hP hqP => ?_⟩
    refine covers_of_rest (fun M hM => hM) (fun hahead => ?_) (h.covers hr P hP hqP)
    rcases hahead.reach with heq | hmem
    · rw [← heq, hP.additions_eq_empty] at some
      exact absurd some Set.not_nonempty_empty
    · rw [none] at hmem
      exact absurd hmem (Set.notMem_empty _)
  | drop =>
    exact ⟨fun M hM => h.nodes M (Multiset.mem_cons_of_mem hM), h.sound,
      fun hr => absurd hr Bool.noConfusion⟩

/-- **The invariant of every run.** -/
theorem Inv.run (h : Transition.Run (Step att A q) (.init att A) ms x) : Inv att A q x :=
  h.invariant (fun _ _ _ hinv hstep => hinv.step hstep) inv_init

/-- **The answer of a search that has ended.** -/
theorem Inv.rejected_iff (h : Inv att A q x) (hend : x.nodes = 0) :
    x.rejected = true ↔ ∃ P, Preferred att A P ∧ q ∉ P := by
  refine ⟨h.sound, fun ⟨P, hP, hqP⟩ => ?_⟩
  by_contra hr
  obtain ⟨N, hN, -⟩ := h.covers (Bool.not_eq_true _ ▸ hr) P hP hqP
  rw [hend] at hN
  exact absurd hN (Multiset.notMem_zero N)

/-! ## Ascents -/

/-- The sets on the way from `∅` up to a node, the last one first. -/
structure Ascent (att : α → α → Prop) (A : Set α) (q : α) (p : List (Set α)) : Prop where
  ascending : p.Pairwise fun D E => E ⊂ D
  members : ∀ E ∈ p, Admissible att A E ∧ q ∉ E ∧ ¬ Attacks att E q
  start : p.getLast? = some ∅

/-- One set more. -/
theorem Ascent.cons {p : List (Set α)} (h : Ascent att A q (S :: p)) (hSE : S ⊂ E)
    (hE : Admissible att A E ∧ q ∉ E ∧ ¬ Attacks att E q) : Ascent att A q (E :: S :: p) where
  ascending := by
    refine List.pairwise_cons.mpr ⟨fun D hD => ?_, h.ascending⟩
    rcases List.mem_cons.mp hD with rfl | hD
    · exact hSE
    · exact ((List.pairwise_cons.mp h.ascending).1 D hD).trans hSE
  members := by
    intro D hD
    rcases List.mem_cons.mp hD with rfl | hD
    · exact hE
    · exact h.members D hD
  start := by
    rw [List.getLast?_cons_cons]
    exact h.start

/-- **There are finitely many ascents.** -/
theorem finite_ascents (hA : A.Finite) : {p | Ascent att A q p}.Finite := by
  refine (Forest.finite_nodup_lists hA.finite_subsets).subset fun p hp => ⟨?_, fun E hE => ?_⟩
  · exact hp.ascending.imp fun hlt => hlt.ne'
  · exact (hp.members E hE).1.subset

/-! ## Answers that meet -/

/-- A set that the search may pass on its way to an answer: it is admissible, not empty, does not
attack `q`, and lies in an admissible set that does. -/
structure OnTheWay (att : α → α → Prop) (A : Set α) (q : α) (E : Set α) : Prop where
  nonempty : E.Nonempty
  admissible : Admissible att A E
  spares : ¬ Attacks att E q
  below : ∃ R, Admissible att A R ∧ Attacks att R q ∧ E ⊆ R

/-- **Two answers may be found at the same time.** -/
def Contended (att : α → α → Prop) (A : Set α) (q : α) : Prop :=
  ∃ E, OnTheWay att A q E ∧
    ((∃ R, Admissible att A R ∧ Attacks att R q ∧ ¬ E ⊆ R) ∨ ∃ D, OnTheWay att A q D ∧ D ≠ E)

theorem OnTheWay.notMem (h : OnTheWay att A q E) : q ∉ E := by
  obtain ⟨R, hR, hatt, hsub⟩ := h.below
  exact fun hq => hR.not_mem_of_attacks hatt (hsub hq)

theorem contended_of_ne {D : Set α} (hD : OnTheWay att A q D) (hE : OnTheWay att A q E)
    (hne : D ≠ E) : Contended att A q := ⟨E, hE, Or.inr ⟨D, hD, hne⟩⟩

/-- Of two sets one does not include the other. -/
theorem Contended.cases (h : Contended att A q) :
    (∃ E R, OnTheWay att A q E ∧ Admissible att A R ∧ Attacks att R q ∧ ¬ E ⊆ R) ∨
      ∃ D E, OnTheWay att A q D ∧ OnTheWay att A q E ∧ ¬ D ⊆ E := by
  obtain ⟨E, hE, ⟨R, hR, hatt, hnot⟩ | ⟨D, hD, hne⟩⟩ := h
  · exact Or.inl ⟨E, R, hE, hR, hatt, hnot⟩
  · by_cases hsub : D ⊆ E
    · exact Or.inr ⟨E, D, hE, hD, fun hsup => hne (Set.Subset.antisymm hsub hsup)⟩
    · exact Or.inr ⟨D, E, hD, hE, hsub⟩

/-- If answers can meet there is one. -/
theorem Contended.exists_preferred (h : Contended att A q) :
    ∃ P, Preferred att A P ∧ q ∉ P := by
  obtain ⟨E, hE, -⟩ := h
  obtain ⟨R, hR, hatt, -⟩ := hE.below
  obtain ⟨P, hsub, hP⟩ := exists_preferred_of_admissible hR
  exact ⟨P, hP, hP.not_mem_of_attacks hsub hatt⟩

end Branching

end Dung
