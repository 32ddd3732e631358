import Mathlib.Data.List.Basic
import Mathlib.Data.List.Perm.Basic
import Mathlib.Algebra.BigOperators.Group.List.Basic
import Mathlib.Order.Basic
import Mathlib.Tactic.Common
import Mathlib.Algebra.Ring.Nat

/-!
# Runs of a labelled transition system

A nondeterministic program is a relation `step s ℓ t`; a run is a list of labels
with a path that carries them.  The rules below are the ones a proof about *every*
run uses.

* `Run.invariant`: what one step preserves, a run preserves; `Run.invariant_under`: the
  same where another invariant is known, and `Run.invariant_reachable` where the state is
  known to be reached.
* `Run.count_add_le`: a potential that no step raises and that the counted steps
  lower bounds how often they occur.
* `Run.length_add_le`: the same with every step counted, so runs are bounded.
* `Run.cost_add_le`: the same where some steps raise the potential, and are paid for.
* `Settles step init post`: total correctness under every choice.  Runs from
  `init` have bounded length, and a run that cannot be continued has ended in a
  state with `post`.
-/

namespace Transition

variable {σ ι : Type*}

/-- A finite run, with the labels of its steps in order. -/
inductive Run (step : σ → ι → σ → Prop) : σ → List ι → σ → Prop
  | nil (s : σ) : Run step s [] s
  | cons {s t u : σ} {ℓ : ι} {ls : List ι} (first : step s ℓ t) (rest : Run step t ls u) :
      Run step s (ℓ :: ls) u

variable {step step' : σ → ι → σ → Prop} {s t u : σ} {ℓ : ι} {ls ls' : List ι}

theorem Run.single (h : step s ℓ t) : Run step s [ℓ] t := .cons h (.nil t)

theorem Run.append (h : Run step s ls t) (h' : Run step t ls' u) : Run step s (ls ++ ls') u := by
  induction h with
  | nil => exact h'
  | cons first _ ih => exact .cons first (ih h')

theorem Run.snoc (h : Run step s ls t) (h' : step t ℓ u) : Run step s (ls ++ [ℓ]) u :=
  h.append (.single h')

/-- A run splits wherever its labels do. -/
theorem Run.split : ∀ {ls : List ι} {s : σ}, Run step s (ls ++ ls') u →
    ∃ t, Run step s ls t ∧ Run step t ls' u
  | [], s, h => ⟨s, .nil s, h⟩
  | _ :: _, _, .cons first rest => by
    obtain ⟨t, hleft, hright⟩ := rest.split
    exact ⟨t, .cons first hleft, hright⟩

/-- Every label of a run belongs to a step of it. -/
theorem Run.exists_step (h : Run step s ls u) (hℓ : ℓ ∈ ls) :
    ∃ before t t', Run step s before t ∧ step t ℓ t' := by
  obtain ⟨before, after, rfl⟩ := List.append_of_mem hℓ
  obtain ⟨t, hbefore, hrest⟩ := h.split
  cases hrest with
  | cons first _ => exact ⟨before, t, _, hbefore, first⟩

theorem Run.mono (hstep : ∀ s ℓ t, step s ℓ t → step' s ℓ t) (h : Run step s ls t) :
    Run step' s ls t := by
  induction h with
  | nil s => exact .nil s
  | cons first _ ih => exact .cons (hstep _ _ _ first) ih

/-- **The invariant rule.** -/
theorem Run.invariant {P : σ → Prop} (hstep : ∀ s ℓ t, P s → step s ℓ t → P t)
    (h : Run step s ls t) (hs : P s) : P t := by
  induction h with
  | nil => exact hs
  | cons first _ ih => exact ih (hstep _ _ _ hs first)

/-- **The rule for a second invariant**, which one step preserves where the first holds. -/
theorem Run.invariant_under {P Q : σ → Prop} (hP : ∀ s ℓ t, P s → step s ℓ t → P t)
    (hQ : ∀ s ℓ t, P s → Q s → step s ℓ t → Q t) (h : Run step s ls t) (hs : P s) (hq : Q s) :
    Q t :=
  (h.invariant (P := fun s => P s ∧ Q s)
    (fun s ℓ t hboth hstep => ⟨hP s ℓ t hboth.1 hstep, hQ s ℓ t hboth.1 hboth.2 hstep⟩)
    ⟨hs, hq⟩).2

/-- **The rule for reachable states**: what one step preserves from the states that a run from
`s` reaches. -/
theorem Run.invariant_reachable {P : σ → Prop}
    (hstep : ∀ ls t ℓ u, Run step s ls t → P t → step t ℓ u → P u)
    (h : Run step s ls t) (hs : P s) : P t :=
  (h.invariant (P := fun t => (∃ ls, Run step s ls t) ∧ P t)
    (fun t ℓ u ⟨⟨ls, hrun⟩, ht⟩ hfirst => ⟨⟨_, hrun.snoc hfirst⟩, hstep ls t ℓ u hrun ht hfirst⟩)
    ⟨⟨[], .nil s⟩, hs⟩).2

/-! ## Potentials -/

/-- **The counting rule.**  Under an invariant `P`, let no step raise `φ` and let
every step whose label is counted lower it.  Then a run from `s` counts at most
`φ s` steps, and what is left of `φ` is not spent twice. -/
theorem Run.count_add_le {P : σ → Prop} {φ : σ → ℕ} {c : ι → Bool}
    (hP : ∀ s ℓ t, P s → step s ℓ t → P t)
    (hle : ∀ s ℓ t, P s → step s ℓ t → φ t ≤ φ s)
    (hlt : ∀ s ℓ t, P s → step s ℓ t → c ℓ = true → φ t < φ s)
    (h : Run step s ls t) (hs : P s) : ls.countP c + φ t ≤ φ s := by
  induction h with
  | nil => simp
  | @cons s t u ℓ ls first _ ih =>
    have hrest := ih (hP _ _ _ hs first)
    have hfirst := hle _ _ _ hs first
    by_cases hc : c ℓ = true
    · have hstrict := hlt _ _ _ hs first hc
      rw [List.countP_cons_of_pos hc]
      omega
    · rw [List.countP_cons_of_neg hc]
      omega

/-- **The variant rule.**  A potential that every step lowers bounds the length of
runs. -/
theorem Run.length_add_le {P : σ → Prop} {φ : σ → ℕ}
    (hP : ∀ s ℓ t, P s → step s ℓ t → P t)
    (hlt : ∀ s ℓ t, P s → step s ℓ t → φ t < φ s)
    (h : Run step s ls t) (hs : P s) : ls.length + φ t ≤ φ s := by
  have hcount := h.count_add_le (c := fun _ => true) hP
    (fun s ℓ t hs h => Nat.le_of_lt (hlt s ℓ t hs h)) (fun s ℓ t hs h _ => hlt s ℓ t hs h) hs
  rwa [List.countP_true] at hcount

/-- **The rule with credit.**  A step may raise the potential if its label is paid for: let every
step lower `φ` by its cost, up to its credit.  Then a run costs at most `φ` at its start and the
credit it gets. -/
theorem Run.cost_add_le {P : σ → Prop} {φ : σ → ℕ} {cost credit : ι → ℕ}
    (hP : ∀ s ℓ t, P s → step s ℓ t → P t)
    (hle : ∀ s ℓ t, P s → step s ℓ t → cost ℓ + φ t ≤ φ s + credit ℓ)
    (h : Run step s ls t) (hs : P s) :
    (ls.map cost).sum + φ t ≤ φ s + (ls.map credit).sum := by
  induction h with
  | nil => simp
  | @cons s t u ℓ ls first _ ih =>
    have hrest := ih (hP _ _ _ hs first)
    have hfirst := hle _ _ _ hs first
    rw [List.map_cons, List.sum_cons, List.map_cons, List.sum_cons]
    omega

/-! ## Potentials of a list of processes

The potential of a system is often the sum over its processes.  One process moves at a
time, and a process that starts leaves the list of those that wait. -/

theorem sum_map_set {β : Type*} (f : β → ℕ) {l : List β} {i : ℕ} {x : β} (y : β)
    (h : l[i]? = some x) : ((l.set i y).map f).sum + f x = (l.map f).sum + f y := by
  obtain ⟨hi, rfl⟩ := List.getElem?_eq_some_iff.mp h
  have hset := ((List.set_perm_cons_eraseIdx hi y).map f).sum_eq
  have hold := ((List.getElem_cons_eraseIdx_perm hi).map f).sum_eq
  rw [List.map_cons, List.sum_cons] at hset hold
  omega

theorem sum_map_eraseIdx {β : Type*} (f : β → ℕ) {l : List β} {i : ℕ} {x : β}
    (h : l[i]? = some x) : ((l.eraseIdx i).map f).sum + f x = (l.map f).sum := by
  obtain ⟨hi, rfl⟩ := List.getElem?_eq_some_iff.mp h
  have hold := ((List.getElem_cons_eraseIdx_perm hi).map f).sum_eq
  rw [List.map_cons, List.sum_cons] at hold
  omega

/-! ## Total correctness under every choice -/

/-- Whatever choices are made, the program started in `init` stops after a
bounded number of steps, and it stops in a state with `post`. -/
structure Settles (step : σ → ι → σ → Prop) (init : σ) (post : σ → Prop) : Prop where
  bounded : ∃ bound, ∀ ls t, Run step init ls t → ls.length ≤ bound
  ends : ∀ ls t, Run step init ls t → (∀ ℓ u, ¬ step t ℓ u) → post t

theorem Settles.mono {post post' : σ → Prop} (h : Settles step s post)
    (himp : ∀ ls t, Run step s ls t → post t → post' t) : Settles step s post' where
  bounded := h.bounded
  ends := fun ls t hrun hstuck => himp ls t hrun (h.ends ls t hrun hstuck)

/-- A bounded program reaches a state where it stops. -/
theorem exists_stuck_of_bounded (step : σ → ι → σ → Prop) : ∀ (bound : ℕ) (s : σ),
    (∀ ls t, Run step s ls t → ls.length ≤ bound) →
      ∃ ls t, Run step s ls t ∧ ∀ ℓ u, ¬ step t ℓ u := by
  intro bound
  induction bound with
  | zero =>
    intro s hbound
    refine ⟨[], s, .nil s, fun ℓ u hstep => ?_⟩
    have := hbound [ℓ] u (.single hstep)
    simp at this
  | succ bound ih =>
    intro s hbound
    by_cases hstuck : ∀ ℓ u, ¬ step s ℓ u
    · exact ⟨[], s, .nil s, hstuck⟩
    · push Not at hstuck
      obtain ⟨ℓ, t, hstep⟩ := hstuck
      obtain ⟨ls, u, hrun, hend⟩ := ih t fun ls u hrun => by
        have := hbound (ℓ :: ls) u (.cons hstep hrun)
        rw [List.length_cons] at this
        omega
      exact ⟨ℓ :: ls, u, .cons hstep hrun, hend⟩

/-- Some run ends, and it ends with `post`. -/
theorem Settles.exists_end {post : σ → Prop} (h : Settles step s post) :
    ∃ ls t, Run step s ls t ∧ (∀ ℓ u, ¬ step t ℓ u) ∧ post t := by
  obtain ⟨bound, hbound⟩ := h.bounded
  obtain ⟨ls, t, hrun, hend⟩ := exists_stuck_of_bounded step bound s hbound
  exact ⟨ls, t, hrun, hend, h.ends ls t hrun hend⟩

/-- Every run can be continued to an end. -/
theorem Settles.exists_end_of_run {post : σ → Prop} (h : Settles step s post)
    (hrun : Run step s ls t) : ∃ ls' u, Run step t ls' u ∧ post u := by
  obtain ⟨bound, hbound⟩ := h.bounded
  obtain ⟨ls', u, hrest, hend⟩ := exists_stuck_of_bounded step bound t fun ls' u hrest => by
    have hlength := hbound _ _ (hrun.append hrest)
    rw [List.length_append] at hlength
    omega
  exact ⟨ls', u, hrest, h.ends _ _ (hrun.append hrest) hend⟩

end Transition
