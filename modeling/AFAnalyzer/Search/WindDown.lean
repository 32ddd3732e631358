import AFAnalyzer.Search.Polling
import Mathlib.Algebra.BigOperators.Ring.List
import Mathlib.Algebra.Group.Action.Defs
import Mathlib.Algebra.Order.BigOperators.Group.List
import Mathlib.Algebra.Order.Ring.Nat

/-!
# Winding down

`lateCalls_iff` says what a set flag means for one activation.  This module says what it means
for the region: how much can still happen once the flag is set, whoever moves.

Under a set flag an activation moves along `Drains`, which has one cycle: a found set that
contains the query sends the activation back to its solver without a poll.  Every other
transition leads towards the end.  So with weights on the points, a run after the flag pays for
its steps with what the state weighs at the start, and with the `continue`s it makes
(`search_windDown`).  Tasks that start late cost three steps each, and never a SAT call.
-/

namespace AFAnalyzer

variable {F : AF} {A : VectorBitSet} {q : ℕ} {proof : List ℕ} {s s' : SearchState} {ℓ : Action}
  {ls : List Action} {answer : Option (ℕ → Bool)} {a b : Activation} {e : Effect}

/-- **What an activation does under a set flag.** -/
inductive Drains : Point → Effect → Point → Prop
  | poll {p : Point} (polls : p = .entry ∨ p = .pollEncoded ∨ p = .pollLoop) :
      Drains p .silent .leaving
  | small : Drains .encode .silent .leaving
  | encoded : Drains .encode .silent .pollEncoded
  | call : Drains .loopHead .callSolver .answered
  | exhausted : Drains .answered .silent .leaving
  | onlyEmpty : Drains .answered .setFlag .leaving
  | reject : Drains .answered .setFlag .handOver
  | abort : Drains .answered .abort .loopHead
  | spawn {L : List ℕ} {prio : ℕ} : Drains .answered (.spawn L prio) .pollLoop
  | handOver {L : List ℕ} : Drains .handOver (.handOver L) .assigning
  | assigned : Drains .assigning .silent .leaving
  | ret : Drains .leaving .ret .returned

theorem Activation.Ok.drains (hok : a.Ok F A q) (hin : SearchInput F A q)
    (h : Advanced F A true answer a b e) : Drains a.point e b.point := by
  cases h with
  | cutOff polls _ _ _ point =>
    rw [point]
    exact .poll polls
  | entered _ unset => exact absurd unset (by simp)
  | small point =>
    rw [point]
    exact .small
  | encoded point =>
    rw [point]
    exact .encoded
  | armed _ unset => exact absurd unset (by simp)
  | call point =>
    rw [point]
    exact .call
  | exhausted point =>
    rw [point]
    exact .exhausted
  | onlyEmpty point =>
    rw [point]
    exact .onlyEmpty
  | reject point =>
    rw [point]
    exact .reject
  | abort point =>
    -- the last poll read an unset flag
    have htmp := hok.tmp (Or.inr point)
    rw [point, htmp]
    exact .abort
  | spawn point =>
    rw [point]
    exact .spawn
  | again _ unset => exact absurd unset (by simp)
  | handOver point =>
    rw [point]
    exact .handOver
  | assigned point =>
    rw [point]
    exact .assigned
  | ret point =>
    rw [point]
    exact .ret
  | fault why => exact absurd why (hok.not_faulty hin)

/-! ## Weights -/

/-- A weight for each point and one for a waiting task. -/
structure Weights where
  point : Point → ℕ
  task : ℕ

/-- What an effect weighs besides the activation itself. -/
def Weights.effect (w : Weights) : Effect → ℕ
  | .spawn _ _ => w.task
  | _ => 0

/-- The weight of a state. -/
def SearchState.weight (w : Weights) (s : SearchState) : ℕ :=
  (s.activations.map fun a => w.point a.point).sum + w.task * s.tasks.length

/-- Every transition is paid for, and so is the start of a task. -/
structure Weights.Pays (w : Weights) (cost credit : Action → ℕ) : Prop where
  drains : ∀ {p e p'}, Drains p e p' → ∀ i,
    cost (.act i e) + (w.point p' + w.effect e) ≤ w.point p + credit (.act i e)
  start : ∀ k x p, cost (.start k x p) + w.point .entry ≤ w.task

theorem SearchState.tasks_length_apply {i : ℕ} (w : Weights) :
    w.task * (s.apply i b e).tasks.length = w.task * s.tasks.length + w.effect e := by
  cases e with
  | spawn L prio =>
    show w.task * (s.tasks ++ [(⟨i, L, prio⟩ : Task)]).length = _
    rw [List.length_append, List.length_singleton, Nat.mul_succ]
    rfl
  | _ => rfl

/-- **A step under a set flag is paid for.** -/
theorem Weights.Pays.step {w : Weights} {cost credit : Action → ℕ} (hw : w.Pays cost credit)
    (hin : SearchInput F A q) (hinv : SearchInv F A q s) (hflag : s.flag = true)
    (h : LawfulStep F A s ℓ s') : cost ℓ + s'.weight w ≤ s.weight w + credit ℓ := by
  obtain ⟨hstep, -⟩ := h
  cases hstep with
  | @act i a b e answer running active answers advance =>
    have hok := hinv.activations i a active
    have hset : s.heap a.isRejected = true := by
      rw [hok.isRejected]
      exact hflag
    rw [hset] at advance
    have hpays := hw.drains (hok.drains hin (Activation.advanced_of_advance advance)) i
    have hsum := Transition.sum_map_set (fun a => w.point a.point) b active
    rw [SearchState.weight, SearchState.weight, SearchState.tasks_length_apply,
      SearchState.activations_apply]
    omega
  | @start k x p t creator running waiting created captured =>
    have hpays := hw.start k x p
    have hlt := (List.getElem?_eq_some_iff.mp waiting).1
    have htasks : w.task * (s.tasks.eraseIdx k).length + w.task = w.task * s.tasks.length := by
      rw [List.length_eraseIdx_of_lt hlt, ← Nat.mul_succ]
      congr 1
      omega
    have hentry : (Activation.enter (some t.creator) x p t.newExtensionBuild).point = .entry := rfl
    rw [SearchState.weight, SearchState.weight, SearchState.activations_startTask,
      SearchState.tasks_startTask, List.map_append, List.sum_append, List.map_singleton,
      List.sum_singleton, hentry]
    omega

/-- **The rule**: what happens after the flag is set is paid for by the state and the credit. -/
theorem Weights.Pays.run {w : Weights} {cost credit : Action → ℕ} (hw : w.Pays cost credit)
    (hin : SearchInput F A q) (hinv : SearchInv F A q s) (hflag : s.flag = true)
    (h : Transition.Run (LawfulStep F A) s ls s') :
    (ls.map cost).sum + s'.weight w ≤ s.weight w + (ls.map credit).sum := by
  refine h.cost_add_le (P := fun s => SearchInv F A q s ∧ s.flag = true) (fun s ℓ t hs hstep =>
    ⟨hs.1.step hin hstep, hstep.1.heap_of_true hs.2⟩)
    (fun s ℓ t hs hstep => hw.step hin hs.1 hs.2 hstep) ⟨hinv, hflag⟩

/-! ## What is left to do -/

/-- The way back to the solver without a poll. -/
def Action.aborts : Action → Bool
  | .act _ .abort => true
  | _ => false

/-- A SAT call. -/
def Action.calls : Action → Bool
  | .act _ .callSolver => true
  | _ => false

/-- The creation of a task. -/
def Action.spawns : Action → Bool
  | .act _ (.spawn _ _) => true
  | _ => false

/-- The steps up to the return, with those of the task that the activation may still create. -/
def stepWeights : Weights where
  point
    | .entry | .pollEncoded | .assigning | .pollLoop => 2
    | .encode | .handOver => 3
    | .loopHead => 7
    | .answered => 6
    | .leaving => 1
    | .returned => 0
  task := 3

/-- The call before which an activation stands. -/
def callWeights : Weights where
  point p := (p == .loopHead).toNat
  task := 0

/-- The task that an activation may still create. -/
def spawnWeights : Weights where
  point p := (p == .loopHead || p == .answered).toNat
  task := 0

theorem pays_steps : stepWeights.Pays (fun _ => 1) fun ℓ => 2 * ℓ.aborts.toNat where
  drains := by
    intro p e p' h i
    cases h with
    | poll polls => rcases polls with rfl | rfl | rfl <;> exact Nat.le_of_ble_eq_true rfl
    | _ => exact Nat.le_of_ble_eq_true rfl
  start := fun _ _ _ => le_rfl

theorem pays_calls : callWeights.Pays (fun ℓ => ℓ.calls.toNat) fun ℓ => ℓ.aborts.toNat where
  drains := by
    intro p e p' h i
    cases h with
    | poll polls => rcases polls with rfl | rfl | rfl <;> exact Nat.le_of_ble_eq_true rfl
    | _ => exact Nat.le_of_ble_eq_true rfl
  start := fun _ _ _ => le_rfl

theorem pays_spawns : spawnWeights.Pays (fun ℓ => ℓ.spawns.toNat) fun _ => 0 where
  drains := by
    intro p e p' h i
    cases h with
    | poll polls => rcases polls with rfl | rfl | rfl <;> exact Nat.le_of_ble_eq_true rfl
    | _ => exact Nat.le_of_ble_eq_true rfl
  start := fun _ _ _ => le_rfl

theorem sum_map_toNat {β : Type*} (c : β → Bool) (l : List β) :
    (l.map fun x => (c x).toNat).sum = l.countP c := by
  induction l with
  | nil => rfl
  | cons x l ih =>
    rw [List.map_cons, List.sum_cons, ih, List.countP_cons]
    cases c x <;> simp [Nat.add_comm]

theorem weight_steps_le :
    s.weight stepWeights ≤ 7 * s.activations.length + 3 * s.tasks.length := by
  have hpoint : ∀ x ∈ s.activations.map fun a => stepWeights.point a.point, x ≤ 7 := by
    intro x hx
    obtain ⟨a, -, rfl⟩ := List.mem_map.mp hx
    cases a.point <;> decide
  have hsum := List.sum_le_card_nsmul _ 7 hpoint
  rw [List.length_map, smul_eq_mul, Nat.mul_comm] at hsum
  exact Nat.add_le_add_right hsum _

theorem weight_calls :
    s.weight callWeights = s.activations.countP fun a => a.point == .loopHead := by
  rw [← sum_map_toNat]
  exact congrArg (_ + ·) (Nat.zero_mul _)

theorem weight_spawns : s.weight spawnWeights =
    s.activations.countP fun a => a.point == .loopHead || a.point == .answered := by
  rw [← sum_map_toNat]
  exact congrArg (_ + ·) (Nat.zero_mul _)

/-- **How much can happen after the flag is set**, when each task sees the argument and the flag of
its creator.  The region is done after at most 7 steps for each activation, 3 for each waiting task
and 2 for each `continue`.  It calls a solver once for each activation that stands before the call
and once for each `continue`, and it creates a task at most for each activation that was searching
when the flag was set. -/
theorem search_windDown (W : WellFormed) (A : ActiveArgs W.n) {q : ℕ} (hq : q ∈ A.vector)
    (hself : ¬ W.af.att q q) {proof : List ℕ} {ls₁ ls₂ : List Action} {s₁ s₂ : SearchState}
    (h₁ : Transition.Run (LawfulStep W.af A.toVectorBitSet) (.init q proof) ls₁ s₁)
    (hflag : s₁.flag = true)
    (h₂ : Transition.Run (LawfulStep W.af A.toVectorBitSet) s₁ ls₂ s₂) :
    ls₂.length ≤ 7 * s₁.activations.length + 3 * s₁.tasks.length +
        2 * ls₂.countP Action.aborts ∧
      ls₂.countP Action.calls ≤ s₁.activations.countP (fun a => a.point == .loopHead) +
        ls₂.countP Action.aborts ∧
      ls₂.countP Action.spawns ≤
        s₁.activations.countP fun a => a.point == .loopHead || a.point == .answered := by
  have hin := W.searchInput A hq hself
  have hinv := SearchInv.run hin h₁
  refine ⟨?_, ?_, ?_⟩
  · have hpaid := pays_steps.run hin hinv hflag h₂
    have hweight := weight_steps_le (s := s₁)
    rw [List.sum_map_mul_left, sum_map_toNat, List.map_const', List.sum_replicate_nat,
      Nat.mul_one] at hpaid
    omega
  · have hpaid := pays_calls.run hin hinv hflag h₂
    rw [sum_map_toNat, sum_map_toNat, weight_calls (s := s₁)] at hpaid
    omega
  · have hpaid := pays_spawns.run hin hinv hflag h₂
    rw [sum_map_toNat, weight_spawns (s := s₁), List.map_const', List.sum_replicate_nat] at hpaid
    omega

theorem search_windDown_choice :
    ∃ ls₁ s₁ ls₂ s₂,
      Transition.Run (LawfulStep choiceFramework.af choiceActive.toVectorBitSet)
        (.init 1 []) ls₁ s₁ ∧ s₁.flag = true ∧
      Transition.Run (LawfulStep choiceFramework.af choiceActive.toVectorBitSet) s₁ ls₂ s₂ ∧
        2 ≤ ls₂.countP Action.calls ∧
        ls₂.length ≤ 7 * s₁.activations.length + 3 * s₁.tasks.length +
          2 * ls₂.countP Action.aborts := by
  obtain ⟨hP, hqP, hatt⟩ := choice_preferred_omitting
  have hin := choiceFramework.searchInput choiceActive (q := 1) (by decide) (by decide)
  obtain ⟨ls₁, s₁, s₂, -, h₁, hflag, -, h₂⟩ :=
    exists_lateCalls hin hP hqP hatt choice_preferred_containing.admissible List.mem_cons_self []
  exact ⟨ls₁, s₁, _, s₂, h₁, hflag, h₂, by decide,
    (search_windDown choiceFramework choiceActive (by decide) (by decide) h₁ hflag h₂).1⟩

end AFAnalyzer
