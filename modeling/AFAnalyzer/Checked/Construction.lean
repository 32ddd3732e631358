import AFAnalyzer.Logic.ParserICCMA
import AFAnalyzer.Table.Checked

/-!
# Subscripts while a framework is read

`parse_af` stores whatever ids a line leaves in its two variables, and compares none of them
with the number in the header.  `finish_initilization` then subscripts its tables by these ids,
after a cast to `int32_t` that turns the upper half of the ids into huge subscripts.  Its other
loops count with an `int`, which overflows if the tables have more than `2 ^ 31 - 1` rows; tables
of that size take `2 ^ 63` bytes, so that the program dies in the allocation before.  This module
has the two functions with checked subscripts: they fail where the source reads or writes outside
a vector, and where the index of a loop overflows.

`finishInitilization_eq_ite` says for which stored attacks that happens.  `parseAf_inBounds_iff`
goes back to the text: whatever the uninitialised variables contain, and in whatever order the
attacks are visited, the parser stays inside its tables exactly when the number in the header is
below `2 ^ 31 - 1` and every attack line starts with a number that fits the tables, followed by
another one or by something that is not a number, for which the extraction stores 0.
-/

namespace AFAnalyzer.Checked

open Table Istream ParserICCMA

/-- The subscript that an id is after the cast to `int32_t`. -/
def subscript (id : ℕ) : ℕ := if id < 2 ^ 31 then id else 2 ^ 64 - 2 ^ 32 + id

/-- `table[i].push_back(x)`. -/
def pushAt (table : List (List ℕ)) (i x : ℕ) : Option (List (List ℕ)) :=
  alter table i fun row => some (row ++ [x])

/-- `table[i][j] = true`. -/
def setAt (table : List (List Bool)) (i j : ℕ) : Option (List (List Bool)) :=
  alter table i fun row => store row j true

/-- The body of the loop over `attacks`. -/
def fillAttack (attacks : Finset (ℕ × ℕ)) (t : AF.Tables) (attack : ℕ × ℕ) :
    Option AF.Tables := do
  let source := attack.1
  let target := attack.2
  let attackersVectors ← pushAt t.attackersVectors (subscript target) source
  let attackersBitsets ← setAt t.attackersBitsets (subscript target) (subscript source)
  let victimsVectors ← pushAt t.victimsVectors (subscript source) target
  let victimsBitsets ← setAt t.victimsBitsets (subscript source) (subscript target)
  let selfAttack ←
    (if source = target then store t.selfAttack (subscript source) true else some t.selfAttack)
  return {
    attackersVectors := attackersVectors
    attackersBitsets := attackersBitsets
    victimsVectors := victimsVectors
    victimsBitsets := victimsBitsets
    selfAttack := selfAttack
    symmetricAttacks :=
      if (target, source) ∈ attacks then
        insert (target, source) (insert (source, target) t.symmetricAttacks)
      else t.symmetricAttacks }

/-- The values of `i` in `for (int i = 0; i < count; i++)`, where `i` must reach `count`. -/
def intRange (count : ℕ) : Option (List ℕ) :=
  if count < 2 ^ 31 then some (List.range count) else none

/-- The loop that moves row `i` of two tables into entry `i` of a member. -/
def moveTables (count : ℕ) (vectors : List (List ℕ)) (bitsets : List (List Bool)) :
    Option (List VectorBitSet) := do
  (← intRange count).mapM fun i => do return ⟨← vectors[i]?, ← bitsets[i]?⟩

/-- `AF::finish_initilization`, with the attacks visited in the given order.  The first loop gives
the rows of the bitsets their length. -/
def finishInitilization (F : AF) (order : List (ℕ × ℕ)) : Option AF := do
  let _ ← intRange (F.numArgs + 1)
  let t ← order.foldlM (fillAttack F.attacks) (AF.emptyTables F (F.numArgs + 1))
  let attackers ← moveTables F.attackers.length t.attackersVectors t.attackersBitsets
  let victims ← moveTables F.victims.length t.victimsVectors t.victimsBitsets
  return { F with
    attackers := attackers
    victims := victims
    selfAttack := t.selfAttack
    symmetricAttacks := t.symmetricAttacks }

/-- `parse_af` on a fresh framework, with the attacks visited in the given order. -/
def parseAf (g : Garbage) (order : List (ℕ × ℕ)) (text : List Char) : Option AF :=
  (readAf g text).bind fun framework => finishInitilization framework order

variable {table : List (List Bool)} {size i j n : ℕ} {attacks : Finset (ℕ × ℕ)} {t : AF.Tables}
  {order : List (ℕ × ℕ)} {F : AF} {g : Garbage} {text line : List Char}

/-! ## The loop over the attacks -/

theorem pushAt_eq_ite {table : List (List ℕ)} {x : ℕ} : pushAt table i x =
    if i < table.length then some (AF.pushAt table i x) else none := by
  have h := alter_eq_ite (i := i) (g := (· ++ [x])) (P := True)
    fun row (_ : row ∈ table) => (if_pos trivial).symm
  simp only [and_true] at h
  exact h

theorem setAt_eq_ite (hrows : ∀ row ∈ table, row.length = size) : setAt table i j =
    if i < table.length ∧ j < size then some (AF.setAt table i j) else none := by
  refine alter_eq_ite fun row hrow => ?_
  rw [← hrows row hrow]
  rfl

/-- The tables have one row for each subscript below `size`, and the rows of the bitsets have
one bit for each of them. -/
structure Shape (size : ℕ) (t : AF.Tables) : Prop where
  attackersVectors : t.attackersVectors.length = size
  attackersBitsets : t.attackersBitsets.length = size
  attackersRows : ∀ row ∈ t.attackersBitsets, row.length = size
  victimsVectors : t.victimsVectors.length = size
  victimsBitsets : t.victimsBitsets.length = size
  victimsRows : ∀ row ∈ t.victimsBitsets, row.length = size
  selfAttack : t.selfAttack.length = size

theorem length_of_mem_setAt {row : List Bool} (hrows : ∀ row ∈ table, row.length = size)
    (h : row ∈ AF.setAt table i j) : row.length = size := by
  obtain ⟨k, hk, rfl⟩ := List.mem_iff_getElem.mp h
  have hk' : k < table.length := by rwa [AF.setAt, List.length_modify] at hk
  have hold := hrows _ (List.getElem_mem hk')
  simp only [AF.setAt, List.getElem_modify]
  split
  · rwa [List.length_set]
  · exact hold

theorem Shape.fillAttack (h : Shape size t) (attack : ℕ × ℕ) :
    Shape size (AF.fillAttack attacks t attack) where
  attackersVectors := (List.length_modify ..).trans h.attackersVectors
  attackersBitsets := (List.length_modify ..).trans h.attackersBitsets
  attackersRows := fun _ hrow => length_of_mem_setAt h.attackersRows hrow
  victimsVectors := (List.length_modify ..).trans h.victimsVectors
  victimsBitsets := (List.length_modify ..).trans h.victimsBitsets
  victimsRows := fun _ hrow => length_of_mem_setAt h.victimsRows hrow
  selfAttack := by
    show (if _ then _ else _ : List Bool).length = size
    split
    · rw [List.length_set, h.selfAttack]
    · exact h.selfAttack

theorem subscript_lt_iff (hn : n < 2 ^ 31) : subscript i < n + 1 ↔ i ≤ n := by
  unfold subscript
  split
  · omega
  · omega

theorem subscript_of_le (hn : n < 2 ^ 31) (h : i ≤ n) : subscript i = i :=
  if_pos (lt_of_le_of_lt h hn)

/-- **One attack**: its ids must fit. -/
theorem fillAttack_eq_ite (hn : n < 2 ^ 31) (h : Shape (n + 1) t) (attack : ℕ × ℕ) :
    fillAttack attacks t attack =
      if attack.1 ≤ n ∧ attack.2 ≤ n then some (AF.fillAttack attacks t attack) else none := by
  unfold fillAttack
  simp only [pushAt_eq_ite, setAt_eq_ite h.attackersRows, setAt_eq_ite h.victimsRows,
    h.attackersVectors, h.attackersBitsets, h.victimsVectors, h.victimsBitsets,
    subscript_lt_iff hn]
  by_cases hfits : attack.1 ≤ n ∧ attack.2 ≤ n
  · obtain ⟨hsource, htarget⟩ := hfits
    have hself : (if attack.1 = attack.2 then store t.selfAttack attack.1 true
        else some t.selfAttack) =
        some (if attack.1 = attack.2 then t.selfAttack.set attack.1 true else t.selfAttack) := by
      rw [store_of_lt (h.selfAttack ▸ Nat.lt_succ_of_le hsource)]
      split <;> rfl
    simp only [if_pos hsource, if_pos htarget, if_pos (And.intro htarget hsource),
      if_pos (And.intro hsource htarget), subscript_of_le hn hsource,
      subscript_of_le hn htarget, hself]
    rfl
  · -- the bitset of the target needs both subscripts
    simp only [if_neg hfits, if_neg fun h : attack.2 ≤ n ∧ attack.1 ≤ n => hfits h.symm]
    split <;> rfl

theorem shape_emptyTables (h : F.selfAttack.length = size) :
    Shape size (AF.emptyTables F size) where
  attackersVectors := List.length_replicate
  attackersBitsets := List.length_replicate
  attackersRows := fun _ hrow => by rw [List.eq_of_mem_replicate hrow, List.length_replicate]
  victimsVectors := List.length_replicate
  victimsBitsets := List.length_replicate
  victimsRows := fun _ hrow => by rw [List.eq_of_mem_replicate hrow, List.length_replicate]
  selfAttack := h

theorem moveTables_eq {count : ℕ} {vectors : List (List ℕ)} {bitsets : List (List Bool)}
    (hcount : count < 2 ^ 31) (hv : vectors.length = count) (hb : bitsets.length = count) :
    moveTables count vectors bitsets = some (AF.moveTables count vectors bitsets) := by
  rw [moveTables, intRange, if_pos hcount]
  refine mapM_eq_map fun i hi => ?_
  have hlt := List.mem_range.mp hi
  rw [read_of_lt (d := []) (hv ▸ hlt), read_of_lt (d := []) (hb ▸ hlt)]
  rfl

/-- The sizes that `initialize` gives to the members. -/
structure Initialized (F : AF) : Prop where
  attackers : F.attackers.length = F.numArgs + 1
  victims : F.victims.length = F.numArgs + 1
  selfAttack : F.selfAttack.length = F.numArgs + 1

theorem initialized_addAttacks (n : ℕ) (calls : List (ℕ × ℕ)) :
    Initialized ((AF.fresh.initializeArgs n).addAttacks calls) ∧
      ((AF.fresh.initializeArgs n).addAttacks calls).numArgs = n := by
  rw [AF.addAttacks_initializeArgs_fresh]
  exact ⟨⟨List.length_replicate, List.length_replicate, List.length_replicate⟩, rfl⟩

/-- The tables can be walked through, and the ids of the attacks fit. -/
def InBounds (n : ℕ) (order : List (ℕ × ℕ)) : Prop :=
  n < 2 ^ 31 - 1 ∧ ∀ attack ∈ order, attack.1 ≤ n ∧ attack.2 ≤ n

instance (n : ℕ) (order : List (ℕ × ℕ)) : Decidable (InBounds n order) :=
  inferInstanceAs (Decidable (_ ∧ _))

/-- **When `finish_initilization` stays inside its tables.** -/
theorem finishInitilization_eq_ite (hF : Initialized F) : finishInitilization F order =
    if InBounds F.numArgs order then some (F.finishInitilization order) else none := by
  by_cases hn : F.numArgs < 2 ^ 31 - 1
  · have hcount : F.numArgs + 1 < 2 ^ 31 := by omega
    have hempty := shape_emptyTables hF.selfAttack
    have hloop : order.foldlM (fillAttack F.attacks) (AF.emptyTables F (F.numArgs + 1)) =
        if ∀ attack ∈ order, attack.1 ≤ F.numArgs ∧ attack.2 ≤ F.numArgs then
          some (order.foldl (AF.fillAttack F.attacks) (AF.emptyTables F (F.numArgs + 1)))
        else none :=
      foldlM_eq_ite (fun t ht attack _ => fillAttack_eq_ite (by omega) ht attack)
        (fun t ht attack _ _ => ht.fillAttack attack) hempty
    have hshape : Shape (F.numArgs + 1)
        (order.foldl (AF.fillAttack F.attacks) (AF.emptyTables F (F.numArgs + 1))) :=
      List.foldlRecOn order _ hempty fun t ht attack _ => ht.fillAttack attack
    unfold finishInitilization
    rw [intRange, if_pos hcount, Option.bind_eq_bind, Option.bind_some, hloop]
    by_cases hfits : ∀ attack ∈ order, attack.1 ≤ F.numArgs ∧ attack.2 ≤ F.numArgs
    · have hbounds : InBounds F.numArgs order := ⟨hn, hfits⟩
      rw [if_pos hfits, if_pos hbounds, Option.bind_eq_bind, Option.bind_some,
        moveTables_eq (hF.attackers ▸ hcount) (hshape.attackersVectors.trans hF.attackers.symm)
          (hshape.attackersBitsets.trans hF.attackers.symm),
        moveTables_eq (hF.victims ▸ hcount) (hshape.victimsVectors.trans hF.victims.symm)
          (hshape.victimsBitsets.trans hF.victims.symm)]
      rfl
    · rw [if_neg hfits, if_neg fun h => hfits h.2]
      rfl
  · -- the index of the first loop overflows
    unfold finishInitilization
    rw [intRange, if_neg (by omega), if_neg fun h => hn h.1]
    rfl

/-! ## The parser -/

/-- What has been read is initialised for the number in the header. -/
theorem initialized_of_readAf (h : readAf g text = some F) :
    Initialized F ∧ F.numArgs = headerArgs text := by
  obtain ⟨-, rfl⟩ := readAf_eq_some.mp h
  exact initialized_addAttacks _ _

/-- **What the parser makes of a text** that starts with `p`. -/
theorem parseAf_eq_ite (h : readAf g text = some F) : parseAf g order text =
    if InBounds (headerArgs text) order then ParserICCMA.parseAf g order text else none := by
  obtain ⟨hF, hn⟩ := initialized_of_readAf h
  rw [parseAf, ParserICCMA.parseAf, h, Option.bind_some, Option.map_some,
    finishInitilization_eq_ite hF, hn]

/-- The line starts with a number that fits, and another one or no number follows. -/
def WithinTables (n : ℕ) (line : List Char) : Prop :=
  ∃ x rest, Number line x rest ∧ x ≤ n ∧
    ((∃ y rest', Number rest y rest' ∧ y ≤ n) ∨ NoNumber rest)

/-- A line is within the tables exactly when everything it may leave fits. -/
theorem leaves_fits_iff (hn : n < 2 ^ 31) :
    (∀ x y, Leaves line x y → x ≤ n ∧ y ≤ n) ↔ WithinTables n line := by
  -- an id that an uninitialised variable may hold does not fit
  have hmax : ∀ m, m = 2 ^ 32 - 1 → ¬ m ≤ n := by omega
  constructor
  · intro hall
    rcases field_cases line with h | h | h | ⟨x, rest, h⟩
    · exact absurd (hall _ _ (.blank h 0 (2 ^ 32 - 1))).2 (hmax _ rfl)
    · exact absurd (hall _ _ (.noNumber h (2 ^ 32 - 1))).2 (hmax _ rfl)
    · exact absurd (hall _ _ (.tooLarge h 0)).1 (hmax _ rfl)
    · rcases field_cases rest with h' | h' | h' | ⟨y, rest', h'⟩
      · exact absurd (hall _ _ (.one h h' (2 ^ 32 - 1))).2 (hmax _ rfl)
      · exact ⟨x, rest, h, (hall _ _ (.secondNoNumber h h')).1, Or.inr h'⟩
      · exact absurd (hall _ _ (.secondTooLarge h h')).2 (hmax _ rfl)
      · obtain ⟨hx, hy⟩ := hall _ _ (.two ⟨rest, rest', h, h'⟩)
        exact ⟨x, rest, h, hx, Or.inl ⟨y, rest', h', hy⟩⟩
  · rintro ⟨a, rest, ha, hfits, hsecond⟩ x y hleaves
    obtain ⟨init, hinit⟩ := hleaves.exists_readAttack
    rw [readAttack_of_number ha] at hinit
    obtain ⟨rfl, rfl⟩ := Prod.mk.inj hinit
    refine ⟨hfits, ?_⟩
    rcases hsecond with ⟨b, rest', hb, hfits'⟩ | hno
    · rw [extractUnsigned_number hb]
      exact hfits'
    · rw [(extractUnsigned_noNumber hno _).2]
      exact Nat.zero_le _

/-- **For which texts the parser stays inside its tables.**  In every run on the text, whatever
the uninitialised variables contain, all subscripts are in bounds and no index of a loop overflows
exactly when the number in the header is below `2 ^ 31 - 1` and each attack line is within the
tables. -/
theorem parseAf_inBounds_iff (text : List Char) :
    (∀ g F order, readAf g text = some F → IterationOrder F.attacks order →
      parseAf g order text = ParserICCMA.parseAf g order text) ↔
    ((header text).head? = some 'p' → headerArgs text < 2 ^ 31 - 1 ∧
      ∀ line ∈ attackLines text, WithinTables (headerArgs text) line) := by
  have hrun : ∀ g F order, readAf g text = some F → IterationOrder F.attacks order →
      (parseAf g order text = ParserICCMA.parseAf g order text ↔ headerArgs text < 2 ^ 31 - 1 ∧
        ∀ x y, (x, y) ∈ F.attacks → x ≤ headerArgs text ∧ y ≤ headerArgs text) := by
    intro g F order hread horder
    have hbounds : InBounds (headerArgs text) order ↔ headerArgs text < 2 ^ 31 - 1 ∧
        ∀ x y, (x, y) ∈ F.attacks → x ≤ headerArgs text ∧ y ≤ headerArgs text := by
      refine and_congr_right fun _ => ⟨fun h x y hxy => h _ ((horder.mem_iff _).mpr hxy), ?_⟩
      exact fun h attack hattack => h _ _ ((horder.mem_iff attack).mp hattack)
    rw [parseAf_eq_ite hread, ← hbounds, ParserICCMA.parseAf, hread, Option.map_some]
    split
    · next h => exact iff_of_true rfl h
    · next h => exact iff_of_false (Option.some_ne_none _).symm h
  constructor
  · intro hall hp
    have horder : ∀ F : AF, IterationOrder F.attacks F.attacks.toList := fun F =>
      iterationOrder_toList F.attacks
    have hread := (readAf_eq_some (g := fun _ => (0, 0))).mpr ⟨hp, rfl⟩
    have hn := ((hrun _ _ _ hread (horder _)).mp (hall _ _ _ hread (horder _))).1
    refine ⟨hn, fun line hline => (leaves_fits_iff (by omega)).mp fun x y hleaves => ?_⟩
    obtain ⟨g, F, hread, hmem⟩ := exists_readAf_of_leaves hp hline hleaves
    exact ((hrun g F _ hread (horder F)).mp (hall g F _ hread (horder F))).2 x y hmem
  · intro hlines g F order hread horder
    obtain ⟨hn, hlines⟩ := hlines (readAf_eq_some.mp hread).1
    refine (hrun g F order hread horder).mpr ⟨hn, fun x y hxy => ?_⟩
    obtain ⟨line, hline, hleaves⟩ := exists_leaves_of_mem_attacks hread hxy
    exact (leaves_fits_iff (by omega)).mpr (hlines line hline) x y hleaves

example : parseAf (fun _ => (0, 0)) [(1, 3)] "p af 2\n1 3".toList = none := by decide

end AFAnalyzer.Checked
