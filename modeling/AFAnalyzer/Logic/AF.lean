import AFAnalyzer.Logic.VectorBitSet
import Mathlib.Data.Finset.Lattice.Lemmas
import Mathlib.Data.List.Basic
import Mathlib.Data.List.Nodup

/-!
# `AF`: the framework and its views of the attack relation

`AF.cpp` stores the attacks in an unordered set while the file is read, and
`finish_initilization` distributes them over one `VectorBitSet` of attackers and
one of victims per argument.  Preprocessing and reducts read `victims`, the
encoding and the cone read `attackers`.

The iteration order of the unordered set is not specified, so it is a parameter:
`finishInitilization F order` for any enumeration `order` of `F.attacks`.  The two
loops that move the finished tables into the framework are `moveTables`.

`AF.Coherent` says that both views are the attack relation, over ids `1..numArgs`.
It is all that the solver's correctness needs to know about how a framework was
built, and `WellFormed.coherent` derives it for every framework made by
`initialize`, `add_attack` calls and `finish_initilization`.
-/

namespace AFAnalyzer

/-- `AF.h`.  `self_attack` and the bitsets hold the `uint8_t` values 0 and 1. -/
structure AF where
  numArgs : ℕ
  attackers : List VectorBitSet
  victims : List VectorBitSet
  selfAttack : List Bool
  attacks : Finset (ℕ × ℕ)
  symmetricAttacks : Finset (ℕ × ℕ)
  distanceToQuery : List ℕ
  deriving DecidableEq

namespace AF

/-- A default-constructed framework: every container is empty. -/
def fresh : AF := ⟨0, [], [], [], ∅, ∅, []⟩

/-- `std::vector::resize`: keep a prefix, fill up with a value. -/
def resize {β : Type*} (xs : List β) (size : ℕ) (d : β) : List β :=
  xs.take size ++ List.replicate (size - xs.length) d

/-- `AF::add_attack`.  Both ids are unsigned, so the first test never fires. -/
def addAttack (F : AF) (attacker victim : ℕ) : AF × Bool :=
  if attacker < 0 ∨ victim < 0 then (F, false)
  else if (attacker, victim) ∈ F.attacks then (F, false)
  else ({ F with attacks := insert (attacker, victim) F.attacks }, true)

/-- What `add_attack` returns. -/
theorem addAttack_snd {F : AF} {x y : ℕ} :
    (F.addAttack x y).2 = true ↔ (x, y) ∉ F.attacks := by
  rw [addAttack, if_neg (by omega)]
  split
  · next h => exact iff_of_false Bool.false_ne_true fun hnew => hnew h
  · next h => exact iff_of_true rfl h

/-- `AF::initialize`. -/
def initializeArgs (F : AF) (numberArgs : ℕ) : AF :=
  { F with
    numArgs := numberArgs
    attackers := resize F.attackers (numberArgs + 1) default
    victims := resize F.victims (numberArgs + 1) default
    selfAttack := List.replicate (numberArgs + 1) false
    distanceToQuery := List.replicate (numberArgs + 1) 0 }

/-- The local tables of `AF::finish_initilization`, with the two members it fills
directly. -/
structure Tables where
  attackersVectors : List (List ℕ)
  attackersBitsets : List (List Bool)
  victimsVectors : List (List ℕ)
  victimsBitsets : List (List Bool)
  selfAttack : List Bool
  symmetricAttacks : Finset (ℕ × ℕ)

/-- `table[i].push_back(x)`. -/
def pushAt (table : List (List ℕ)) (i x : ℕ) : List (List ℕ) := table.modify i (· ++ [x])

/-- `table[i][j] = true`. -/
def setAt (table : List (List Bool)) (i j : ℕ) : List (List Bool) := table.modify i (·.set j true)

/-- The body of the loop over `attacks`. -/
def fillAttack (attacks : Finset (ℕ × ℕ)) (t : Tables) (attack : ℕ × ℕ) : Tables :=
  let source := attack.1
  let target := attack.2
  { attackersVectors := pushAt t.attackersVectors target source
    attackersBitsets := setAt t.attackersBitsets target source
    victimsVectors := pushAt t.victimsVectors source target
    victimsBitsets := setAt t.victimsBitsets source target
    selfAttack := if source = target then t.selfAttack.set source true else t.selfAttack
    symmetricAttacks :=
      if (target, source) ∈ attacks then
        insert (target, source) (insert (source, target) t.symmetricAttacks)
      else t.symmetricAttacks }

/-- The tables before the loop, for `size = num_args + 1`. -/
def emptyTables (F : AF) (size : ℕ) : Tables where
  attackersVectors := List.replicate size []
  attackersBitsets := List.replicate size (List.replicate size false)
  victimsVectors := List.replicate size []
  victimsBitsets := List.replicate size (List.replicate size false)
  selfAttack := F.selfAttack
  symmetricAttacks := F.symmetricAttacks

/-- The loop that moves row `i` of two tables into entry `i` of a member. -/
def moveTables (count : ℕ) (vectors : List (List ℕ)) (bitsets : List (List Bool)) :
    List VectorBitSet :=
  (List.range count).map fun i => ⟨vectors.getD i [], bitsets.getD i []⟩

/-- `AF::finish_initilization`, with the attacks visited in the given order. -/
def finishInitilization (F : AF) (order : List (ℕ × ℕ)) : AF :=
  let t := order.foldl (fillAttack F.attacks) (emptyTables F (F.numArgs + 1))
  { F with
    attackers := moveTables F.attackers.length t.attackersVectors t.attackersBitsets
    victims := moveTables F.victims.length t.victimsVectors t.victimsBitsets
    selfAttack := t.selfAttack
    symmetricAttacks := t.symmetricAttacks }

/-- `AF::exists_attack`. -/
def existsAttack (F : AF) (attacker victim : ℕ) : Bool := decide ((attacker, victim) ∈ F.attacks)

/-- `framework.attackers[a]`. -/
def attackersAt (F : AF) (a : ℕ) : VectorBitSet := F.attackers.getD a default

/-- `framework.victims[a]`. -/
def victimsAt (F : AF) (a : ℕ) : VectorBitSet := F.victims.getD a default

/-- `framework.distance_to_query[a]`. -/
def distanceAt (F : AF) (a : ℕ) : ℕ := F.distanceToQuery.getD a 0

/-! ## What the solver relies on -/

/-- The attack relation of the framework. -/
def att (F : AF) (a b : ℕ) : Prop := (a, b) ∈ F.attacks

/-- All arguments of the framework. -/
def args (F : AF) : Set ℕ := {a | 1 ≤ a ∧ a ≤ F.numArgs}

instance (F : AF) (a b : ℕ) : Decidable (F.att a b) :=
  inferInstanceAs (Decidable ((a, b) ∈ F.attacks))

instance (F : AF) (a : ℕ) : Decidable (a ∈ F.args) :=
  inferInstanceAs (Decidable (1 ≤ a ∧ a ≤ F.numArgs))

/-- The views agree with the attack relation, which relates arguments in
`1..numArgs` only; literals fit the solver's `int`. -/
structure Coherent (F : AF) : Prop where
  bound : 2 * F.numArgs < 2 ^ 31
  att_args : ∀ {a b}, F.att a b → a ∈ F.args ∧ b ∈ F.args
  bit_victims : ∀ a b, (F.victimsAt a).bit b = true ↔ F.att a b
  mem_victims : ∀ a b, b ∈ (F.victimsAt a).vector ↔ F.att a b
  nodup_victims : ∀ a, (F.victimsAt a).vector.Nodup
  bit_attackers : ∀ a b, (F.attackersAt a).bit b = true ↔ F.att b a
  mem_attackers : ∀ a b, b ∈ (F.attackersAt a).vector ↔ F.att b a
  nodup_attackers : ∀ a, (F.attackersAt a).vector.Nodup
  length_distance : F.distanceToQuery.length = F.numArgs + 1

variable {F : AF}

/-- Ids are positive and fit into an `int`. -/
theorem Coherent.id_range {a : ℕ} (h : F.Coherent) (ha : a ∈ F.args) : 1 ≤ a ∧ a < 2 ^ 31 := by
  have hle := ha.2
  have hbound := h.bound
  exact ⟨ha.1, by omega⟩

/-- The distances play no part in the views. -/
theorem Coherent.withDistance (h : F.Coherent) {d : List ℕ} (hd : d.length = F.numArgs + 1) :
    ({ F with distanceToQuery := d } : AF).Coherent :=
  { h with length_distance := hd }

theorem Coherent.attackers_empty_iff (h : F.Coherent) {a : ℕ} :
    (F.attackersAt a).vector = [] ↔ ∀ b, ¬ F.att b a := by
  rw [List.eq_nil_iff_forall_not_mem]
  simp only [h.mem_attackers]

/-! ## Filling the tables -/

theorem getD_pushAt {table : List (List ℕ)} {i j x : ℕ} (hj : j < table.length) :
    (pushAt table i x).getD j [] = if i = j then table.getD j [] ++ [x] else table.getD j [] := by
  have hj' : j < (pushAt table i x).length := by rw [pushAt, List.length_modify]; exact hj
  rw [List.getD_eq_getElem _ _ hj', List.getD_eq_getElem _ _ hj]
  simp only [pushAt, List.getElem_modify]

theorem getD_setAt {table : List (List Bool)} {i j x : ℕ} (hj : j < table.length) :
    (setAt table i x).getD j [] =
      if i = j then (table.getD j []).set x true else table.getD j [] := by
  have hj' : j < (setAt table i x).length := by rw [setAt, List.length_modify]; exact hj
  rw [List.getD_eq_getElem _ _ hj', List.getD_eq_getElem _ _ hj]
  simp only [setAt, List.getElem_modify]

/-- Row `i` of a pair of tables filled side by side. -/
def row (vectors : List (List ℕ)) (bitsets : List (List Bool)) (i : ℕ) : VectorBitSet :=
  ⟨vectors.getD i [], bitsets.getD i []⟩

/-- One round on one pair of tables: the row of the key receives a push. -/
theorem row_fill {vectors : List (List ℕ)} {bitsets : List (List Bool)} {i j x : ℕ}
    (hv : j < vectors.length) (hb : j < bitsets.length) :
    row (pushAt vectors i x) (setAt bitsets i x) j =
      if i = j then (row vectors bitsets j).push x else row vectors bitsets j := by
  rw [row, getD_pushAt hv, getD_setAt hb]
  split <;> rfl

/-- **Each row is built by pushes.**  After the loop, row `j` of a pair of tables
filled at `key p` with `val p` has received the values whose key is `j`, in the
order in which they were visited. -/
theorem row_foldl {vectors : List (List ℕ)} {bitsets : List (List Bool)} (key val : ℕ × ℕ → ℕ)
    (order : List (ℕ × ℕ)) {j : ℕ} (hv : j < vectors.length) (hb : j < bitsets.length) :
    row (order.foldl (fun t p => pushAt t (key p) (val p)) vectors)
      (order.foldl (fun t p => setAt t (key p) (val p)) bitsets) j =
    ((order.filter fun p => key p = j).map val).foldl VectorBitSet.push
      (row vectors bitsets j) := by
  induction order generalizing vectors bitsets with
  | nil => rfl
  | cons p order ih =>
    rw [List.foldl_cons, List.foldl_cons,
      ih (by rw [pushAt, List.length_modify]; exact hv)
        (by rw [setAt, List.length_modify]; exact hb), row_fill hv hb]
    by_cases hkey : key p = j
    · rw [if_pos hkey, List.filter_cons_of_pos (by simpa using hkey), List.map_cons,
        List.foldl_cons]
    · rw [if_neg hkey, List.filter_cons_of_neg (by simpa using hkey)]

/-- The loop fills each table independently of the others. -/
theorem foldl_fillAttack (attacks : Finset (ℕ × ℕ)) (order : List (ℕ × ℕ)) (t : Tables) :
    (order.foldl (fillAttack attacks) t).attackersVectors =
        order.foldl (fun t p => pushAt t p.2 p.1) t.attackersVectors ∧
      (order.foldl (fillAttack attacks) t).attackersBitsets =
        order.foldl (fun t p => setAt t p.2 p.1) t.attackersBitsets ∧
      (order.foldl (fillAttack attacks) t).victimsVectors =
        order.foldl (fun t p => pushAt t p.1 p.2) t.victimsVectors ∧
      (order.foldl (fillAttack attacks) t).victimsBitsets =
        order.foldl (fun t p => setAt t p.1 p.2) t.victimsBitsets := by
  induction order generalizing t with
  | nil => exact ⟨rfl, rfl, rfl, rfl⟩
  | cons p order ih => exact ih (fillAttack attacks t p)

/-- An entry of a moved member is a row of the tables. -/
theorem getD_moveTables {count : ℕ} {vectors : List (List ℕ)} {bitsets : List (List Bool)} {i : ℕ}
    (hi : i < count) :
    (moveTables count vectors bitsets).getD i default = row vectors bitsets i := by
  rw [List.getD_eq_getElem _ _ (by rw [moveTables, List.length_map, List.length_range]; exact hi)]
  simp [moveTables, row]

theorem getD_moveTables_of_le {count : ℕ} {vectors : List (List ℕ)} {bitsets : List (List Bool)}
    {i : ℕ} (hi : count ≤ i) : (moveTables count vectors bitsets).getD i default = default := by
  rw [List.getD_eq_default]
  rw [moveTables, List.length_map, List.length_range]
  exact hi

theorem row_replicate {size i : ℕ} (hi : i < size) :
    row (List.replicate size []) (List.replicate size (List.replicate size false)) i =
      ⟨[], List.replicate size false⟩ := by
  rw [row, List.getD_eq_getElem _ _ (by rwa [List.length_replicate]),
    List.getD_eq_getElem _ _ (by rwa [List.length_replicate]), List.getElem_replicate,
    List.getElem_replicate]

end AF

/-! ## Frameworks as the parser builds them -/

/-- An order in which an unordered set may be iterated. -/
structure IterationOrder (s : Finset (ℕ × ℕ)) (order : List (ℕ × ℕ)) : Prop where
  nodup : order.Nodup
  mem_iff : ∀ p, p ∈ order ↔ p ∈ s

theorem iterationOrder_self {calls : List (ℕ × ℕ)} (h : calls.Nodup) :
    IterationOrder calls.toFinset calls :=
  ⟨h, fun _ => List.mem_toFinset.symm⟩

theorem iterationOrder_dedup (calls : List (ℕ × ℕ)) :
    IterationOrder calls.toFinset calls.dedup :=
  ⟨List.nodup_dedup calls, fun _ => List.mem_dedup.trans List.mem_toFinset.symm⟩

theorem iterationOrder_toList (s : Finset (ℕ × ℕ)) : IterationOrder s s.toList :=
  ⟨s.nodup_toList, fun _ => Finset.mem_toList⟩

/-- A sequence of `add_attack` calls. -/
def AF.addAttacks (F : AF) (calls : List (ℕ × ℕ)) : AF :=
  calls.foldl (fun F p => (F.addAttack p.1 p.2).1) F

/-- `initialize(n)` on a fresh framework, then the calls of `add_attack`, then
`finish_initilization` with the given iteration order. -/
def buildAF (n : ℕ) (calls order : List (ℕ × ℕ)) : AF :=
  ((AF.fresh.initializeArgs n).addAttacks calls).finishInitilization order

/-- A well-formed framework: how it was built, with ids in `1..n`. -/
structure WellFormed where
  n : ℕ
  calls : List (ℕ × ℕ)
  order : List (ℕ × ℕ)
  bound : 2 * n < 2 ^ 31
  inRange : ∀ p ∈ calls, 1 ≤ p.1 ∧ p.1 ≤ n ∧ 1 ≤ p.2 ∧ p.2 ≤ n
  iteration : IterationOrder calls.toFinset order

/-- The framework object at the end of the construction. -/
def WellFormed.af (W : WellFormed) : AF := buildAF W.n W.calls W.order

namespace AF

@[simp] theorem addAttack_attacks (F : AF) (a v : ℕ) :
    (F.addAttack a v).1.attacks = insert (a, v) F.attacks := by
  unfold addAttack
  rw [if_neg (by omega)]
  split
  · next h => exact (Finset.insert_eq_of_mem h).symm
  · rfl

/-- `add_attack` touches the attack set only. -/
theorem addAttack_fst (F : AF) (a v : ℕ) :
    (F.addAttack a v).1 = { F with attacks := insert (a, v) F.attacks } := by
  unfold addAttack
  rw [if_neg (by omega)]
  split
  · next h => rw [Finset.insert_eq_of_mem h]
  · rfl

theorem addAttacks_eq (F : AF) (calls : List (ℕ × ℕ)) :
    F.addAttacks calls = { F with attacks := calls.toFinset ∪ F.attacks } := by
  induction calls generalizing F with
  | nil => simp [addAttacks]
  | cons p calls ih =>
    rw [addAttacks, List.foldl_cons, ← addAttacks, ih, addAttack_fst]
    simp only [List.toFinset_cons]
    rw [Finset.union_insert, Finset.insert_union]

/-- The framework before `finish_initilization`. -/
theorem addAttacks_initializeArgs_fresh (n : ℕ) (calls : List (ℕ × ℕ)) :
    (fresh.initializeArgs n).addAttacks calls =
      { numArgs := n
        attackers := List.replicate (n + 1) default
        victims := List.replicate (n + 1) default
        selfAttack := List.replicate (n + 1) false
        attacks := calls.toFinset
        symmetricAttacks := ∅
        distanceToQuery := List.replicate (n + 1) 0 } := by
  rw [addAttacks_eq]
  simp [fresh, initializeArgs, resize]

end AF

section Build

variable {n : ℕ} {calls order : List (ℕ × ℕ)}

@[simp] theorem buildAF_numArgs : (buildAF n calls order).numArgs = n := by
  rw [buildAF, AF.addAttacks_initializeArgs_fresh]
  rfl

@[simp] theorem buildAF_attacks : (buildAF n calls order).attacks = calls.toFinset := by
  rw [buildAF, AF.addAttacks_initializeArgs_fresh]
  rfl

@[simp] theorem buildAF_distanceToQuery :
    (buildAF n calls order).distanceToQuery = List.replicate (n + 1) 0 := by
  rw [buildAF, AF.addAttacks_initializeArgs_fresh]
  rfl

/-- The attackers of `a`, in the order in which their attacks were visited. -/
theorem buildAF_attackersAt {a : ℕ} (ha : a ≤ n) : (buildAF n calls order).attackersAt a =
    VectorBitSet.ofList n ((order.filter fun p => p.2 = a).map Prod.fst) := by
  rw [buildAF, AF.addAttacks_initializeArgs_fresh, AF.attackersAt, AF.finishInitilization]
  obtain ⟨h1, h2, -, -⟩ := AF.foldl_fillAttack calls.toFinset order
    (AF.emptyTables ((AF.fresh.initializeArgs n).addAttacks calls) (n + 1))
  rw [AF.addAttacks_initializeArgs_fresh] at h1 h2
  rw [AF.getD_moveTables (by rw [List.length_replicate]; omega), h1, h2]
  rw [AF.row_foldl Prod.snd Prod.fst order (by simp [AF.emptyTables]; omega)
    (by simp [AF.emptyTables]; omega)]
  rw [AF.emptyTables, AF.row_replicate (by omega)]
  rfl

/-- The victims of `a`, in the order in which their attacks were visited. -/
theorem buildAF_victimsAt {a : ℕ} (ha : a ≤ n) : (buildAF n calls order).victimsAt a =
    VectorBitSet.ofList n ((order.filter fun p => p.1 = a).map Prod.snd) := by
  rw [buildAF, AF.addAttacks_initializeArgs_fresh, AF.victimsAt, AF.finishInitilization]
  obtain ⟨-, -, h1, h2⟩ := AF.foldl_fillAttack calls.toFinset order
    (AF.emptyTables ((AF.fresh.initializeArgs n).addAttacks calls) (n + 1))
  rw [AF.addAttacks_initializeArgs_fresh] at h1 h2
  rw [AF.getD_moveTables (by rw [List.length_replicate]; omega), h1, h2]
  rw [AF.row_foldl Prod.fst Prod.snd order (by simp [AF.emptyTables]; omega)
    (by simp [AF.emptyTables]; omega)]
  rw [AF.emptyTables, AF.row_replicate (by omega)]
  rfl

theorem buildAF_attackersAt_of_lt {a : ℕ} (ha : n < a) :
    (buildAF n calls order).attackersAt a = default := by
  rw [buildAF, AF.addAttacks_initializeArgs_fresh, AF.attackersAt, AF.finishInitilization]
  exact AF.getD_moveTables_of_le (by rw [List.length_replicate]; omega)

theorem buildAF_victimsAt_of_lt {a : ℕ} (ha : n < a) :
    (buildAF n calls order).victimsAt a = default := by
  rw [buildAF, AF.addAttacks_initializeArgs_fresh, AF.victimsAt, AF.finishInitilization]
  exact AF.getD_moveTables_of_le (by rw [List.length_replicate]; omega)

variable (hcalls : ∀ p ∈ calls, p.1 ≤ n ∧ p.2 ≤ n) (horder : IterationOrder calls.toFinset order)

theorem nodup_map_fst_filter (h : order.Nodup) (a : ℕ) :
    ((order.filter fun p => p.2 = a).map Prod.fst).Nodup := by
  refine (h.filter _).map_on ?_
  intro p hp q hq hpq
  have hp2 : p.2 = a := by simpa using (List.mem_filter.mp hp).2
  have hq2 : q.2 = a := by simpa using (List.mem_filter.mp hq).2
  exact Prod.ext hpq (hp2.trans hq2.symm)

theorem nodup_map_snd_filter (h : order.Nodup) (a : ℕ) :
    ((order.filter fun p => p.1 = a).map Prod.snd).Nodup := by
  refine (h.filter _).map_on ?_
  intro p hp q hq hpq
  have hp1 : p.1 = a := by simpa using (List.mem_filter.mp hp).2
  have hq1 : q.1 = a := by simpa using (List.mem_filter.mp hq).2
  exact Prod.ext (hp1.trans hq1.symm) hpq

include hcalls horder

/-- **The attacker view.**  For every argument, vector and bitset agree and list
the sources of the attacks on it. -/
theorem buildAF_attackers_matches {a : ℕ} (ha : a ≤ n) :
    VectorBitSet.Matches n ((buildAF n calls order).attackersAt a) := by
  rw [buildAF_attackersAt ha]
  refine VectorBitSet.matches_ofList (nodup_map_fst_filter horder.nodup a) fun b hb => ?_
  obtain ⟨p, hp, rfl⟩ := List.mem_map.mp hb
  have hmem := (horder.mem_iff p).mp (List.mem_filter.mp hp).1
  exact (hcalls p (List.mem_toFinset.mp hmem)).1

/-- **The victim view.** -/
theorem buildAF_victims_matches {a : ℕ} (ha : a ≤ n) :
    VectorBitSet.Matches n ((buildAF n calls order).victimsAt a) := by
  rw [buildAF_victimsAt ha]
  refine VectorBitSet.matches_ofList (nodup_map_snd_filter horder.nodup a) fun b hb => ?_
  obtain ⟨p, hp, rfl⟩ := List.mem_map.mp hb
  have hmem := (horder.mem_iff p).mp (List.mem_filter.mp hp).1
  exact (hcalls p (List.mem_toFinset.mp hmem)).2

theorem mem_buildAF_attackersAt (a b : ℕ) :
    b ∈ ((buildAF n calls order).attackersAt a).vector ↔ (b, a) ∈ calls := by
  by_cases ha : a ≤ n
  · rw [buildAF_attackersAt ha, VectorBitSet.ofList_vector, List.mem_map]
    constructor
    · rintro ⟨p, hp, rfl⟩
      obtain ⟨hmem, ha⟩ := List.mem_filter.mp hp
      have : p = (p.1, a) := Prod.ext rfl (by simpa using ha)
      rw [← this]
      exact List.mem_toFinset.mp ((horder.mem_iff p).mp hmem)
    · intro h
      refine ⟨(b, a), List.mem_filter.mpr ⟨?_, by simp⟩, rfl⟩
      exact (horder.mem_iff _).mpr (List.mem_toFinset.mpr h)
  · rw [buildAF_attackersAt_of_lt (by omega)]
    constructor
    · exact fun h => absurd h List.not_mem_nil
    · exact fun h => absurd (hcalls _ h).2 ha

theorem mem_buildAF_victimsAt (a b : ℕ) :
    b ∈ ((buildAF n calls order).victimsAt a).vector ↔ (a, b) ∈ calls := by
  by_cases ha : a ≤ n
  · rw [buildAF_victimsAt ha, VectorBitSet.ofList_vector, List.mem_map]
    constructor
    · rintro ⟨p, hp, rfl⟩
      obtain ⟨hmem, ha⟩ := List.mem_filter.mp hp
      have : p = (a, p.2) := Prod.ext (by simpa using ha) rfl
      rw [← this]
      exact List.mem_toFinset.mp ((horder.mem_iff p).mp hmem)
    · intro h
      refine ⟨(a, b), List.mem_filter.mpr ⟨?_, by simp⟩, rfl⟩
      exact (horder.mem_iff _).mpr (List.mem_toFinset.mpr h)
  · rw [buildAF_victimsAt_of_lt (by omega)]
    constructor
    · exact fun h => absurd h List.not_mem_nil
    · exact fun h => absurd (hcalls _ h).1 ha

theorem bit_buildAF_attackersAt (a b : ℕ) :
    ((buildAF n calls order).attackersAt a).bit b = true ↔ (b, a) ∈ calls := by
  by_cases ha : a ≤ n
  · rw [(buildAF_attackers_matches hcalls horder ha).bit_iff,
      mem_buildAF_attackersAt hcalls horder]
  · rw [buildAF_attackersAt_of_lt (by omega)]
    constructor
    · exact fun h => absurd h Bool.false_ne_true
    · exact fun h => absurd (hcalls _ h).2 ha

theorem bit_buildAF_victimsAt (a b : ℕ) :
    ((buildAF n calls order).victimsAt a).bit b = true ↔ (a, b) ∈ calls := by
  by_cases ha : a ≤ n
  · rw [(buildAF_victims_matches hcalls horder ha).bit_iff, mem_buildAF_victimsAt hcalls horder]
  · rw [buildAF_victimsAt_of_lt (by omega)]
    constructor
    · exact fun h => absurd h Bool.false_ne_true
    · exact fun h => absurd (hcalls _ h).1 ha

end Build

/-- **Every well-formed framework is coherent.** -/
theorem WellFormed.coherent (W : WellFormed) : W.af.Coherent := by
  have hcalls : ∀ p ∈ W.calls, p.1 ≤ W.n ∧ p.2 ≤ W.n := fun p hp =>
    ⟨(W.inRange p hp).2.1, (W.inRange p hp).2.2.2⟩
  have hatt : ∀ a b, W.af.att a b ↔ (a, b) ∈ W.calls := by
    intro a b
    rw [AF.att, WellFormed.af, buildAF_attacks, List.mem_toFinset]
  refine
    { bound := by rw [WellFormed.af, buildAF_numArgs]; exact W.bound
      att_args := ?_
      bit_victims := fun a b => ?_
      mem_victims := fun a b => ?_
      nodup_victims := fun a => ?_
      bit_attackers := fun a b => ?_
      mem_attackers := fun a b => ?_
      nodup_attackers := fun a => ?_
      length_distance := by
        rw [WellFormed.af, buildAF_distanceToQuery, buildAF_numArgs, List.length_replicate] }
  · intro a b hab
    obtain ⟨h1, h2, h3, h4⟩ := W.inRange (a, b) ((hatt a b).mp hab)
    rw [WellFormed.af, AF.args, buildAF_numArgs]
    exact ⟨⟨h1, h2⟩, h3, h4⟩
  · rw [hatt]
    exact bit_buildAF_victimsAt hcalls W.iteration a b
  · rw [hatt]
    exact mem_buildAF_victimsAt hcalls W.iteration a b
  · by_cases ha : a ≤ W.n
    · exact (buildAF_victims_matches hcalls W.iteration ha).nodup
    · rw [WellFormed.af, buildAF_victimsAt_of_lt (by omega)]
      exact List.nodup_nil
  · rw [hatt]
    exact bit_buildAF_attackersAt hcalls W.iteration a b
  · rw [hatt]
    exact mem_buildAF_attackersAt hcalls W.iteration a b
  · by_cases ha : a ≤ W.n
    · exact (buildAF_attackers_matches hcalls W.iteration ha).nodup
    · rw [WellFormed.af, buildAF_attackersAt_of_lt (by omega)]
      exact List.nodup_nil

/-- No argument of a fresh framework has been marked. -/
theorem WellFormed.distance_fresh (W : WellFormed) (a : ℕ) :
    W.af.distanceToQuery.getD a 0 = 0 := by
  rw [WellFormed.af, buildAF_distanceToQuery, List.getD_eq_getElem?_getD,
    List.getElem?_getD_replicate_default_eq]

/-- A set of active arguments fits the framework object. -/
theorem ActiveArgs.matches_af {W : WellFormed} (A : ActiveArgs W.n) :
    VectorBitSet.Matches W.af.numArgs A.toVectorBitSet := by
  rw [WellFormed.af, buildAF_numArgs]
  exact A.agrees

theorem ActiveArgs.mem_args {W : WellFormed} (A : ActiveArgs W.n) :
    ∀ a ∈ A.vector, a ∈ W.af.args := by
  intro a ha
  rw [WellFormed.af, AF.args, buildAF_numArgs]
  exact ⟨A.pos a ha, A.agrees.le_of_mem ha⟩

end AFAnalyzer
