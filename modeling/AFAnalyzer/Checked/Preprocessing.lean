import AFAnalyzer.Logic.PreProcessor
import AFAnalyzer.Table.Checked

/-!
# Subscripts in the preprocessing

The reducts, the cone and the grounded reduction with checked subscripts: every read of a
member of the framework, of a bitset or of `num_attacker`, and every write, fails outside its
vector.  The loops that run over a vector by index are loops over its entries here, too.

No function compares an id with a size.  What keeps the subscripts in bounds is that ids only
ever come from the vectors of the framework and from the query: `Sized` says that these are at
most `num_args` and that every table has `num_args + 1` entries, and each function keeps it so
for the sets and lists that it builds.  Under `Sized` the checked functions are the unchecked
ones (`process_eq`).  This needs neither that the views agree with each other nor that the ids
are arguments.
-/

namespace AFAnalyzer.Checked

open Table

/-! ## The functions -/

/-- `set._bitset[a]`. -/
def bit (s : VectorBitSet) (a : ℕ) : Option Bool := s.bitset[a]?

/-- Append an argument and set its bit. -/
def push (s : VectorBitSet) (a : ℕ) : Option VectorBitSet :=
  (store s.bitset a true).map fun bitset => ⟨s.vector ++ [a], bitset⟩

/-- The body of the loop of `Reduct::get_reduct`. -/
def keepActive (F : AF) (argument : ℕ) (reduct : VectorBitSet) (a : ℕ) : Option VectorBitSet :=
  if a = argument then some reduct
  else do
    let victims ← F.victims[argument]?
    if (← bit victims a) = true then some reduct else push reduct a

/-- `Reduct::get_reduct`. -/
def getReduct (activeArguments : VectorBitSet) (F : AF) (argument : ℕ) : Option VectorBitSet :=
  activeArguments.vector.foldlM (keepActive F argument) (VectorBitSet.cleared F.numArgs)

/-- The loop of `Reduct::get_reduct_set` over the rest of the list. -/
def getReductLoop (F : AF) : VectorBitSet → List ℕ → Option VectorBitSet
  | reduct, [] => some reduct
  | reduct, a :: rest =>
    if reduct.vector.isEmpty then some reduct
    else (getReduct reduct F a).bind fun reduct => getReductLoop F reduct rest

/-- `Reduct::get_reduct_set`; `none` is also the exception thrown for an empty list. -/
def getReductSet (activeArguments : VectorBitSet) (F : AF) : List ℕ → Option VectorBitSet
  | [] => none
  | a :: rest => do
    let reduct ← getReduct activeArguments F a
    if reduct.vector.isEmpty then some reduct else getReductLoop F reduct rest

/-- The body of the inner loop of `calculate_cone_influence`. -/
def visitAttacker (query distance : ℕ) (st : ConeState) (attacker : ℕ) : Option ConeState := do
  let visited ← st.distances[attacker]?
  if 0 < visited ∨ attacker = query then some st
  else
    let distances ← store st.distances attacker (u32 (distance + 1))
    let active ← push st.active attacker
    some ⟨active, distances, st.unprocessed ++ [attacker]⟩

/-- The outer loop of `calculate_cone_influence`. -/
def coneLoop (F : AF) (query : ℕ) (fuel : ℕ) (st : ConeState) : Option ConeState :=
  match st.unprocessed, fuel with
  | [], _ => some st
  | _ :: _, 0 => none
  | argument :: rest, fuel + 1 => do
    let distance ← st.distances[argument]?
    let attackers ← F.attackers[argument]?
    let st' ← attackers.vector.foldlM (visitAttacker query distance)
      { st with unprocessed := rest }
    coneLoop F query fuel st'

/-- `calculate_cone_influence`. -/
def calculateConeInfluence (F : AF) (query : ℕ) : Option (AF × VectorBitSet) := do
  let distances ← store F.distanceToQuery query 0
  let active ← push (VectorBitSet.cleared F.numArgs) query
  let st ← coneLoop F query (F.numArgs + 1) ⟨active, distances, [query]⟩
  some ({ F with distanceToQuery := st.distances }, st.active)

/-- The body of the initial loop of `reduce_by_grounded`. -/
def countAttackers (F : AF) (st : GroundedState) (a : ℕ) : Option GroundedState := do
  let attackers ← F.attackers[a]?
  let numAttacker ← store st.numAttacker a (u32 attackers.vector.length)
  some { st with
    unprocessed :=
      if attackers.vector.isEmpty then st.unprocessed ++ [a] else st.unprocessed
    numAttacker := numAttacker }

/-- The body of the innermost loop. -/
def decrementAttacker (st : GroundedState) (vvua : ℕ) : Option GroundedState := do
  if (← bit st.outReduct vvua) = false then some st
  else
    let before ← st.numAttacker[vvua]?
    let numAttacker ← store st.numAttacker vvua (u32 (before + (2 ^ 32 - 1)))
    let after ← numAttacker[vvua]?
    some { st with
      numAttacker := numAttacker
      unprocessed := if after = 0 then st.unprocessed ++ [vvua] else st.unprocessed }

/-- The body of the loop over the victims of the current argument. -/
def visitVictim (F : AF) (st : GroundedState) (vua : ℕ) : Option GroundedState := do
  if (← bit st.outReduct vua) = false then some st
  else
    let victims ← F.victims[vua]?
    victims.vector.foldlM decrementAttacker st

/-- The loop over the unattacked arguments. -/
def groundedLoop (F : AF) (query : ℕ) (fuel : ℕ) (st : GroundedState) :
    Option (PreProcResult × VectorBitSet) :=
  match st.unprocessed, fuel with
  | [], _ => some (.unknown, st.outReduct)
  | _ :: _, 0 => none
  | ua :: rest, fuel + 1 =>
    if ua = query then some (.accepted, st.outReduct)
    else do
      let victims ← F.victims[ua]?
      if (← bit victims query) = true then some (.rejected, st.outReduct)
      else
        let st' ← victims.vector.foldlM (visitVictim F) { st with unprocessed := rest }
        let reduct ← getReduct st'.outReduct F ua
        groundedLoop F query fuel { st' with outReduct := reduct }

/-- `reduce_by_grounded`. -/
def reduceByGrounded (F : AF) (active : VectorBitSet) (query : ℕ) :
    Option (PreProcResult × VectorBitSet) := do
  let st ← active.vector.foldlM (countAttackers F)
    ⟨[], List.replicate (F.numArgs + 1) 0, active⟩
  groundedLoop F query (active.vector.length + 1) st

/-- `PreProc_DS_PR::process`. -/
def process (F : AF) (query : ℕ) (outReduct : VectorBitSet) :
    Option (AF × PreProcResult × VectorBitSet) := do
  let victims ← F.victims[query]?
  if (← bit victims query) = true then some (F, .rejected, outReduct)
  else
    let attackers ← F.attackers[query]?
    if attackers.vector.isEmpty then some (F, .accepted, outReduct)
    else
      let cone ← calculateConeInfluence F query
      let res ← reduceByGrounded cone.1 cone.2 query
      some (cone.1, res.1, res.2)

/-! ## Sizes -/

/-- Every table of the framework has one entry for each id, and holds only ids. -/
structure Sized (F : AF) : Prop where
  attackers : F.attackers.length = F.numArgs + 1
  victims : F.victims.length = F.numArgs + 1
  distance : F.distanceToQuery.length = F.numArgs + 1
  victimsBitset : ∀ a ≤ F.numArgs, (F.victimsAt a).bitset.length = F.numArgs + 1
  attackers_le : ∀ a, ∀ b ∈ (F.attackersAt a).vector, b ≤ F.numArgs
  victims_le : ∀ a, ∀ b ∈ (F.victimsAt a).vector, b ≤ F.numArgs

/-- The set has a bit for each id, and its members are ids. -/
structure Within (n : ℕ) (s : VectorBitSet) : Prop where
  length : s.bitset.length = n + 1
  le : ∀ a ∈ s.vector, a ≤ n

variable {F : AF} {A s : VectorBitSet} {n a q argument : ℕ} {l : List ℕ}

theorem Sized.withDistance (hF : Sized F) {d : List ℕ} (hd : d.length = F.numArgs + 1) :
    Sized { F with distanceToQuery := d } :=
  { hF with distance := hd }

theorem Sized.read_attackers (hF : Sized F) (ha : a ≤ F.numArgs) :
    F.attackers[a]? = some (F.attackersAt a) :=
  read_of_lt (hF.attackers ▸ Nat.lt_succ_of_le ha)

theorem Sized.read_victims (hF : Sized F) (ha : a ≤ F.numArgs) :
    F.victims[a]? = some (F.victimsAt a) :=
  read_of_lt (hF.victims ▸ Nat.lt_succ_of_le ha)

theorem Sized.bit_victims (hF : Sized F) (ha : a ≤ F.numArgs) {b : ℕ} (hb : b ≤ F.numArgs) :
    bit (F.victimsAt a) b = some ((F.victimsAt a).bit b) :=
  read_of_lt (hF.victimsBitset a ha ▸ Nat.lt_succ_of_le hb)

theorem within_cleared (n : ℕ) : Within n (VectorBitSet.cleared n) where
  length := List.length_replicate
  le := fun _ ha => absurd ha List.not_mem_nil

theorem Within.bit_eq (h : Within n s) (ha : a ≤ n) : bit s a = some (s.bit a) :=
  read_of_lt (h.length ▸ Nat.lt_succ_of_le ha)

theorem Within.push_eq (h : Within n s) (ha : a ≤ n) : push s a = some (s.push a) := by
  rw [push, store_of_lt (h.length ▸ Nat.lt_succ_of_le ha)]
  rfl

theorem Within.push (h : Within n s) (ha : a ≤ n) : Within n (s.push a) where
  length := List.length_set.trans h.length
  le := fun b hb => by
    rcases List.mem_append.mp hb with hb | hb
    · exact h.le b hb
    · rw [List.mem_singleton.mp hb]
      exact ha

/-! ## Reducts -/

theorem getReduct_eq (hF : Sized F) (hA : Within F.numArgs A) (ha : argument ≤ F.numArgs) :
    getReduct A F argument = some (AFAnalyzer.getReduct A F argument) ∧
      Within F.numArgs (AFAnalyzer.getReduct A F argument) := by
  refine foldlM_eq_foldl (I := Within F.numArgs) (fun reduct hreduct a hmem => ?_)
    (within_cleared F.numArgs)
  have hle := hA.le a hmem
  unfold keepActive
  by_cases hself : a = argument
  · rw [if_pos hself, if_pos (Or.inl hself)]
    exact ⟨rfl, hreduct⟩
  · rw [if_neg hself, hF.read_victims ha, Option.bind_eq_bind, Option.bind_some,
      hF.bit_victims ha hle, Option.bind_eq_bind, Option.bind_some]
    by_cases hvictim : (F.victimsAt argument).bit a = true
    · rw [if_pos hvictim, if_pos (Or.inr hvictim)]
      exact ⟨rfl, hreduct⟩
    · rw [if_neg hvictim, if_neg (not_or_intro hself hvictim)]
      exact ⟨hreduct.push_eq hle, hreduct.push hle⟩

theorem getReductLoop_eq (hF : Sized F) (hA : Within F.numArgs A)
    (hl : ∀ a ∈ l, a ≤ F.numArgs) :
    getReductLoop F A l = some (AFAnalyzer.getReductLoop F A l) := by
  induction l generalizing A with
  | nil => rfl
  | cons a l ih =>
    obtain ⟨heq, hwithin⟩ := getReduct_eq hF hA (hl a List.mem_cons_self)
    rw [getReductLoop, AFAnalyzer.getReductLoop]
    split
    · rfl
    · rw [heq, Option.bind_some]
      exact ih hwithin fun b hb => hl b (List.mem_cons_of_mem a hb)

theorem getReductSet_eq (hF : Sized F) (hA : Within F.numArgs A) (hl : ∀ a ∈ l, a ≤ F.numArgs) :
    getReductSet A F l = AFAnalyzer.getReductSet A F l := by
  cases l with
  | nil => rfl
  | cons a l =>
    obtain ⟨heq, hwithin⟩ := getReduct_eq hF hA (hl a List.mem_cons_self)
    rw [getReductSet, AFAnalyzer.getReductSet, heq, Option.bind_eq_bind, Option.bind_some]
    split
    · rfl
    · exact getReductLoop_eq hF hwithin fun b hb => hl b (List.mem_cons_of_mem a hb)

/-! ## The cone -/

/-- What keeps the subscripts of the cone loop in bounds. -/
structure ConeSizes (n : ℕ) (st : ConeState) : Prop where
  active : Within n st.active
  distances : st.distances.length = n + 1
  unprocessed : ∀ a ∈ st.unprocessed, a ≤ n

variable {cone : ConeState} {distance fuel : ℕ}

theorem visitAttacker_eq (h : ConeSizes n cone) (ha : a ≤ n) :
    visitAttacker q distance cone a = some (AFAnalyzer.visitAttacker q distance cone a) ∧
      ConeSizes n (AFAnalyzer.visitAttacker q distance cone a) := by
  have hlt : a < cone.distances.length := h.distances ▸ Nat.lt_succ_of_le ha
  unfold visitAttacker AFAnalyzer.visitAttacker
  rw [read_of_lt (d := 0) hlt, store_of_lt hlt, h.active.push_eq ha, Option.bind_eq_bind,
    Option.bind_some]
  by_cases hvisited : 0 < cone.distances.getD a 0 ∨ a = q
  · rw [if_pos hvisited, if_pos hvisited]
    exact ⟨rfl, h⟩
  · rw [if_neg hvisited, if_neg hvisited]
    refine ⟨rfl, h.active.push ha, List.length_set.trans h.distances, fun b hb => ?_⟩
    rcases List.mem_append.mp hb with hb | hb
    · exact h.unprocessed b hb
    · rw [List.mem_singleton.mp hb]
      exact ha

theorem coneLoop_eq (hF : Sized F) (fuel : ℕ) (h : ConeSizes F.numArgs cone) :
    coneLoop F q fuel cone = AFAnalyzer.coneLoop F q fuel cone ∧
      ∀ st, AFAnalyzer.coneLoop F q fuel cone = some st → ConeSizes F.numArgs st := by
  induction fuel generalizing cone with
  | zero =>
    obtain ⟨active, distances, unprocessed⟩ := cone
    cases unprocessed with
    | nil => exact ⟨rfl, fun st hst => Option.some.inj hst ▸ h⟩
    | cons => exact ⟨rfl, fun st hst => absurd hst.symm (Option.some_ne_none st)⟩
  | succ fuel ih =>
    obtain ⟨active, distances, unprocessed⟩ := cone
    cases unprocessed with
    | nil => exact ⟨rfl, fun st hst => Option.some.inj hst ▸ h⟩
    | cons argument rest =>
      have hargument : argument ≤ F.numArgs := h.unprocessed argument List.mem_cons_self
      have hrest : ConeSizes F.numArgs ⟨active, distances, rest⟩ :=
        ⟨h.active, h.distances, fun b hb => h.unprocessed b (List.mem_cons_of_mem argument hb)⟩
      obtain ⟨hfold, hsizes⟩ := foldlM_eq_foldl (I := ConeSizes F.numArgs)
        (g := visitAttacker q (distances.getD argument 0))
        (fun st hst a ha => visitAttacker_eq hst (hF.attackers_le argument a ha)) hrest
      have hread : distances[argument]? = some (distances.getD argument 0) :=
        read_of_lt (h.distances ▸ Nat.lt_succ_of_le hargument)
      unfold coneLoop AFAnalyzer.coneLoop
      simp only [hread, hF.read_attackers hargument, hfold, Option.bind_eq_bind, Option.bind_some]
      exact ih hsizes

theorem calculateConeInfluence_eq (hF : Sized F) (hq : q ≤ F.numArgs) :
    calculateConeInfluence F q = AFAnalyzer.calculateConeInfluence F q ∧
      ∀ F' active, AFAnalyzer.calculateConeInfluence F q = some (F', active) →
        Sized F' ∧ F'.numArgs = F.numArgs ∧ Within F.numArgs active := by
  have hstart : ConeSizes F.numArgs (coneStart F q) :=
    ⟨(within_cleared F.numArgs).push hq, List.length_set.trans hF.distance, fun a ha => by
      rw [List.mem_singleton.mp ha]
      exact hq⟩
  obtain ⟨heq, hend⟩ := coneLoop_eq (q := q) hF (F.numArgs + 1) hstart
  constructor
  · unfold calculateConeInfluence AFAnalyzer.calculateConeInfluence
    rw [store_of_lt (hF.distance ▸ Nat.lt_succ_of_le hq), Option.bind_eq_bind, Option.bind_some,
      (within_cleared F.numArgs).push_eq hq, Option.bind_eq_bind, Option.bind_some, ← heq,
      Option.map_eq_bind]
    rfl
  · intro F' active h
    obtain ⟨st, hst, hres⟩ := Option.map_eq_some_iff.mp h
    obtain ⟨rfl, rfl⟩ := Prod.mk.inj hres
    have hsizes := hend st hst
    exact ⟨hF.withDistance hsizes.distances, rfl, hsizes.active⟩

/-! ## The grounded reduction -/

/-- What keeps the subscripts of the worklist in bounds. -/
structure GroundedSizes (n : ℕ) (st : GroundedState) : Prop where
  unprocessed : ∀ a ∈ st.unprocessed, a ≤ n
  numAttacker : st.numAttacker.length = n + 1
  outReduct : Within n st.outReduct

variable {st : GroundedState}

/-- A worklist that may have received an id. -/
theorem le_of_mem_enqueued {p : Prop} [Decidable p] (hl : ∀ b ∈ l, b ≤ n) (ha : a ≤ n) :
    ∀ b ∈ if p then l ++ [a] else l, b ≤ n := by
  intro b hb
  split at hb
  · rcases List.mem_append.mp hb with hb | hb
    · exact hl b hb
    · rw [List.mem_singleton.mp hb]
      exact ha
  · exact hl b hb

theorem countAttackers_eq (hF : Sized F) (h : GroundedSizes F.numArgs st) (ha : a ≤ F.numArgs) :
    countAttackers F st a = some (AFAnalyzer.countAttackers F st a) ∧
      GroundedSizes F.numArgs (AFAnalyzer.countAttackers F st a) := by
  constructor
  · unfold countAttackers
    rw [hF.read_attackers ha, Option.bind_eq_bind, Option.bind_some,
      store_of_lt (h.numAttacker ▸ Nat.lt_succ_of_le ha)]
    rfl
  · exact ⟨le_of_mem_enqueued h.unprocessed ha, List.length_set.trans h.numAttacker, h.outReduct⟩

theorem decrementAttacker_eq (h : GroundedSizes n st) (ha : a ≤ n) :
    decrementAttacker st a = some (AFAnalyzer.decrementAttacker st a) ∧
      GroundedSizes n (AFAnalyzer.decrementAttacker st a) := by
  have hlt : a < st.numAttacker.length := h.numAttacker ▸ Nat.lt_succ_of_le ha
  have hlt' : ∀ v, a < (st.numAttacker.set a v).length := fun _ => by rwa [List.length_set]
  unfold decrementAttacker AFAnalyzer.decrementAttacker
  rw [h.outReduct.bit_eq ha, Option.bind_eq_bind, Option.bind_some]
  split
  · exact ⟨rfl, h⟩
  · refine ⟨?_, le_of_mem_enqueued h.unprocessed ha, List.length_set.trans h.numAttacker,
      h.outReduct⟩
    rw [read_of_lt (d := 0) hlt, Option.bind_eq_bind, Option.bind_some, store_of_lt hlt,
      Option.bind_eq_bind, Option.bind_some, read_of_lt (d := 0) (hlt' _)]
    rfl

theorem visitVictim_eq (hF : Sized F) (h : GroundedSizes F.numArgs st) (ha : a ≤ F.numArgs) :
    visitVictim F st a = some (AFAnalyzer.visitVictim F st a) ∧
      GroundedSizes F.numArgs (AFAnalyzer.visitVictim F st a) := by
  unfold visitVictim AFAnalyzer.visitVictim
  rw [h.outReduct.bit_eq ha, Option.bind_eq_bind, Option.bind_some]
  split
  · exact ⟨rfl, h⟩
  · rw [hF.read_victims ha, Option.bind_eq_bind, Option.bind_some]
    exact foldlM_eq_foldl
      (fun st hst b hb => decrementAttacker_eq hst (hF.victims_le a b hb)) h

theorem groundedLoop_eq (hF : Sized F) (hq : q ≤ F.numArgs) (h : GroundedSizes F.numArgs st) :
    groundedLoop F q fuel st = AFAnalyzer.groundedLoop F q fuel st := by
  induction fuel generalizing st with
  | zero =>
    obtain ⟨unprocessed, numAttacker, outReduct⟩ := st
    cases unprocessed <;> rfl
  | succ fuel ih =>
    obtain ⟨unprocessed, numAttacker, outReduct⟩ := st
    cases unprocessed with
    | nil => rfl
    | cons ua rest =>
      have hua : ua ≤ F.numArgs := h.unprocessed ua List.mem_cons_self
      have hrest : GroundedSizes F.numArgs ⟨rest, numAttacker, outReduct⟩ :=
        ⟨fun b hb => h.unprocessed b (List.mem_cons_of_mem ua hb), h.numAttacker, h.outReduct⟩
      obtain ⟨hfold, hsizes⟩ := foldlM_eq_foldl (I := GroundedSizes F.numArgs) (g := visitVictim F)
        (fun st hst a ha => visitVictim_eq hF hst (hF.victims_le ua a ha)) hrest
      unfold groundedLoop AFAnalyzer.groundedLoop
      simp only [hF.read_victims hua, hF.bit_victims hua hq, hfold, Option.bind_eq_bind,
        Option.bind_some]
      generalize (F.victimsAt ua).vector.foldl (AFAnalyzer.visitVictim F)
        ⟨rest, numAttacker, outReduct⟩ = st' at hsizes ⊢
      obtain ⟨hreduct, hwithin⟩ := getReduct_eq hF hsizes.outReduct hua
      have hnext : GroundedSizes F.numArgs
          { st' with outReduct := AFAnalyzer.getReduct st'.outReduct F ua } :=
        ⟨hsizes.unprocessed, hsizes.numAttacker, hwithin⟩
      rw [hreduct, Option.bind_some, ih hnext]

theorem reduceByGrounded_eq (hF : Sized F) (hA : Within F.numArgs A) (hq : q ≤ F.numArgs) :
    reduceByGrounded F A q = AFAnalyzer.reduceByGrounded F A q := by
  obtain ⟨hfold, hsizes⟩ := foldlM_eq_foldl (I := GroundedSizes F.numArgs) (g := countAttackers F)
    (fun st hst a ha => countAttackers_eq hF hst (hA.le a ha))
    (s := ⟨[], List.replicate (F.numArgs + 1) 0, A⟩)
    ⟨fun _ ha => absurd ha List.not_mem_nil, List.length_replicate, hA⟩
  rw [reduceByGrounded, hfold, Option.bind_eq_bind, Option.bind_some, groundedLoop_eq hF hq hsizes]
  rfl

/-- **Preprocessing stays in bounds.** -/
theorem process_eq (hF : Sized F) (hq : q ≤ F.numArgs) (out : VectorBitSet) :
    process F q out = AFAnalyzer.process F q out := by
  unfold process AFAnalyzer.process
  rw [hF.read_victims hq, Option.bind_eq_bind, Option.bind_some, hF.bit_victims hq hq,
    Option.bind_eq_bind, Option.bind_some, hF.read_attackers hq, Option.bind_eq_bind,
    Option.bind_some]
  obtain ⟨hcone, hend⟩ := calculateConeInfluence_eq hF hq
  split
  · rfl
  · split
    · rfl
    · rw [hcone]
      cases hres : AFAnalyzer.calculateConeInfluence F q with
      | none => rfl
      | some cone =>
        obtain ⟨hF', hn, hactive⟩ := hend cone.1 cone.2 hres
        rw [Option.bind_eq_bind, Option.bind_some, Option.bind_some,
          reduceByGrounded_eq hF' (hn ▸ hactive) (hn ▸ hq)]
        cases AFAnalyzer.reduceByGrounded cone.1 cone.2 q <;> rfl

end AFAnalyzer.Checked
