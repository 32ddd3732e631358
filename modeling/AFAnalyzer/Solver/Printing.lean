import AFAnalyzer.Solver.Priority
import AFAnalyzer.Solver.Solve
import AFAnalyzer.Stream.Insertion
import AFAnalyzer.Transition.Simulation
import Mathlib.Algebra.BigOperators.Group.Finset.Piecewise
import Mathlib.Algebra.Order.BigOperators.Group.Finset

/-!
# What the search prints

Before an activation creates a task it writes a line with the new extension and the priority
to `cout`.  The line goes out in several insertions, and the standard library only promises
that insertions from several threads do not race: their characters may interleave.  In
`Machine` the whole of this is part of the one step that creates the task.

`PrintStep` takes that step apart.  An activation writes its line character by character,
each character in a step of its own, and takes its next step when the line is complete;
between two characters anybody may move.  `printing_simulation` is the justification of the
coarse step: the finer region shows every run as a run of `Machine`, so whatever the search
settles on, it settles on when it prints (`printing_settles`).  And of the text
(`printing_output`): each activation's characters come in order and complete, the text ends
at the end of a line when the region has finished, and it consists of the characters of the
two phrases, digits, spaces and newlines.
-/

namespace AFAnalyzer

/-- `Printer::print_list`. -/
def printList (listToPrint : List ℕ) : List Char := Ostream.insertBetween listToPrint

/-- The phrase in front of the extension. -/
def extensionPhrase : List Char := "Priority calculated for:".toList

/-- The phrase in front of the priority. -/
def priorityPhrase : List Char := " Calculated Priority: ".toList

/-- What is written before a task is created. -/
def spawnMessage (newExtensionBuild : List ℕ) (prio : ℕ) : List Char :=
  extensionPhrase ++ (printList newExtensionBuild ++
    (priorityPhrase ++ (Ostream.insertUnsigned prio ++ ['\n'])))

/-- What comes with an effect. -/
def Effect.message : Effect → List Char
  | .spawn newExtensionBuild prio => spawnMessage newExtensionBuild prio
  | _ => []

/-- What an activation has to write before its next step. -/
def Activation.message (F : AF) (activeArgs : VectorBitSet) (a : Activation) : List Char :=
  match a.point with
  | .answered => (a.onAnswer F activeArgs).2.message
  | _ => []

/-- The region, what has been written to `cout`, and how much of its message each activation
has written. -/
structure PrintState where
  search : SearchState
  cout : List Char
  written : ℕ → ℕ

/-- A character is written, or the search moves. -/
inductive PrintAction
  | write (i : ℕ) (c : Char)
  | step (ℓ : Action)

namespace PrintState

/-- The start of the region. -/
def init (argument : ℕ) (proofExtension : List ℕ) : PrintState :=
  ⟨.init argument proofExtension, [], fun _ => 0⟩

/-- Activation `i` has written one character more. -/
def write (p : PrintState) (i : ℕ) (c : Char) : PrintState where
  search := p.search
  cout := p.cout ++ [c]
  written := Function.update p.written i (p.written i + 1)

/-- The search has moved to `s`; the activation that moved has nothing written of what it
will write next. -/
def move (p : PrintState) (ℓ : Action) (s : SearchState) : PrintState where
  search := s
  cout := p.cout
  written :=
    match ℓ with
    | .act i _ => Function.update p.written i 0
    | .start _ _ _ => p.written

end PrintState

/-- **One step of the region that prints.**  An activation whose message is complete, or
empty, takes its step. -/
inductive PrintStep (F : AF) (A : VectorBitSet) : PrintState → PrintAction → PrintState → Prop
  | write {p : PrintState} {i : ℕ} {c : Char} {a : Activation}
      (active : p.search.activations[i]? = some a)
      (next : (a.message F A)[p.written i]? = some c) :
      PrintStep F A p (.write i c) (p.write i c)
  | step {p : PrintState} {ℓ : Action} {s : SearchState} (move : LawfulStep F A p.search ℓ s)
      (complete : ∀ i e a, ℓ = .act i e → p.search.activations[i]? = some a →
        p.written i = (a.message F A).length) :
      PrintStep F A p (.step ℓ) (p.move ℓ s)

/-- The step of the search that a step shows. -/
def PrintAction.shown : PrintAction → Option Action
  | .write _ _ => none
  | .step ℓ => some ℓ

variable {F : AF} {A : VectorBitSet} {q i prio : ℕ} {a b : Activation} {e : Effect}
  {L proof : List ℕ} {p p' : PrintState} {k : PrintAction} {ks : List PrintAction} {c : Char}
  {flag : Bool} {answer : Option (ℕ → Bool)}

/-! ## Messages -/

/-- An activation has to write what its next step comes with. -/
theorem Activation.message_of_advance (h : a.advance F A flag answer = some (b, e)) :
    a.message F A = e.message := by
  by_cases hpoint : a.point = .answered
  · rw [Activation.advance_answered hpoint] at h
    rw [Activation.message, hpoint]
    show (a.onAnswer F A).2.message = e.message
    rw [Option.some.inj h]
  · have hnil : a.message F A = [] := by
      unfold Activation.message
      split
      · next heq => exact absurd heq hpoint
      · rfl
    rw [hnil]
    cases Activation.advanced_of_advance h with
    | spawn point => exact absurd point hpoint
    | _ => rfl

/-- An activation that has returned has nothing to write. -/
theorem Activation.message_of_returned (h : a.point = .returned) : a.message F A = [] := by
  rw [Activation.message, h]

theorem Activation.message_enter {creator : Option ℕ} {x r : ℕ} :
    (Activation.enter creator x r L).message F A = [] := rfl

/-- What an activation writes is the line of a task. -/
theorem Activation.exists_of_mem_message (h : c ∈ a.message F A) :
    ∃ L prio, a.message F A = spawnMessage L prio := by
  unfold Activation.message at h ⊢
  split at h
  · generalize a.onAnswer F A = r at h ⊢
    obtain ⟨b, e⟩ := r
    cases e with
    | spawn L prio => exact ⟨L, prio, rfl⟩
    | _ => exact absurd h List.not_mem_nil
  · exact absurd h List.not_mem_nil

/-- The characters that the search writes. -/
def PrintedChar (c : Char) : Prop :=
  c.isDigit = true ∨ c = '\n' ∨ c ∈ extensionPhrase ∨ c ∈ priorityPhrase

theorem printedChar_spawnMessage (h : c ∈ spawnMessage L prio) : PrintedChar c := by
  simp only [spawnMessage, List.mem_append, List.mem_singleton] at h
  rcases h with h | h | h | h | h
  · exact Or.inr (Or.inr (Or.inl h))
  · rcases Ostream.mem_insertBetween h with h | rfl
    · exact Or.inl h
    · exact Or.inr (Or.inr (Or.inr List.mem_cons_self))
  · exact Or.inr (Or.inr (Or.inr h))
  · exact Or.inl (Ostream.isDigit_of_mem_insertUnsigned h)
  · exact Or.inr (Or.inl h)

/-- A line ends with its newline. -/
theorem getLast?_spawnMessage : (spawnMessage L prio).getLast? = some '\n' := by
  simp [spawnMessage]

/-! ## The text -/

/-- The text ends at the end of a line. -/
def EndsLine (text : List Char) : Prop := ∀ c ∈ text.getLast?, c = '\n'

theorem endsLine_nil : EndsLine [] := fun c hc => absurd hc (Option.not_mem_none c)

/-- Somebody is in the middle of a line. -/
def PrintState.Midline (F : AF) (A : VectorBitSet) (p : PrintState) : Prop :=
  ∃ i a, p.search.activations[i]? = some a ∧ 0 < p.written i ∧
    p.written i < (a.message F A).length

/-- What activation `i` has written of its message. -/
def PrintState.begun (F : AF) (A : VectorBitSet) (p : PrintState) (i : ℕ) : List Char :=
  match p.search.activations[i]? with
  | some a => (a.message F A).take (p.written i)
  | none => []

/-- What activation `i` writes in some steps. -/
def outputOf (i : ℕ) (ks : List PrintAction) : List Char :=
  ks.filterMap fun k =>
    match k with
    | .write j c => if j = i then some c else none
    | .step _ => none

/-- The messages that activation `i` owes for some steps. -/
def messagesOf (i : ℕ) (ks : List PrintAction) : List Char :=
  ks.flatMap fun k =>
    match k with
    | .step (.act j e) => if j = i then e.message else []
    | _ => []

/-- All that is written in some steps. -/
def writtenBy (ks : List PrintAction) : List Char :=
  ks.filterMap fun k =>
    match k with
    | .write _ c => some c
    | .step _ => none

theorem outputOf_cons : outputOf i (k :: ks) = outputOf i [k] ++ outputOf i ks :=
  List.filterMap_append (l := [k])

theorem messagesOf_cons : messagesOf i (k :: ks) = messagesOf i [k] ++ messagesOf i ks := by
  rw [messagesOf, List.flatMap_cons, messagesOf, messagesOf, List.flatMap_singleton]

/-- **Every character belongs to a message.**  What an activation has begun and what it writes
are the messages of its steps and what it has begun then. -/
theorem PrintStep.begun_append (h : PrintStep F A p k p') (i : ℕ) :
    p.begun F A i ++ outputOf i [k] = messagesOf i [k] ++ p'.begun F A i := by
  cases h with
  | @write j c a active next =>
    by_cases hji : j = i
    · subst hji
      have hout : outputOf j [.write j c] = [c] := by simp [outputOf]
      have hbegun : (p.write j c).begun F A j =
          (a.message F A).take (p.written j) ++ [c] := by
        obtain ⟨hlt, rfl⟩ := List.getElem?_eq_some_iff.mp next
        simp [PrintState.begun, PrintState.write, active]
      rw [hout, hbegun, PrintState.begun, active]
      rfl
    · have hout : outputOf i [.write j c] = [] := by simp [outputOf, hji]
      have hbegun : (p.write j c).begun F A i = p.begun F A i := by
        simp [PrintState.begun, PrintState.write, Function.update_of_ne (Ne.symm hji)]
      rw [hout, hbegun, List.append_nil]
      rfl
  | @step ℓ s move complete =>
    obtain ⟨hstep, -⟩ := move
    cases hstep with
    | @act j a b e answer running active answers advance =>
      by_cases hji : j = i
      · subst hji
        have hlt := (List.getElem?_eq_some_iff.mp active).1
        have hmessage := Activation.message_of_advance advance
        have hbegun : p.begun F A j = e.message := by
          rw [PrintState.begun, active]
          show (a.message F A).take (p.written j) = e.message
          rw [complete j e a rfl active, List.take_length, hmessage]
        have hafter : (p.move (.act j e) (p.search.apply j b e)).begun F A j = [] := by
          simp [PrintState.begun, PrintState.move, hlt]
        have howed : messagesOf j [.step (.act j e)] = e.message := by simp [messagesOf]
        rw [hbegun, hafter, howed]
        rfl
      · have howed : messagesOf i [.step (.act j e)] = [] := by simp [messagesOf, hji]
        have hbegun : (p.move (.act j e) (p.search.apply j b e)).begun F A i =
            p.begun F A i := by
          simp [PrintState.begun, PrintState.move, List.getElem?_set_ne hji,
            Function.update_of_ne (Ne.symm hji)]
        rw [howed, hbegun]
        exact List.append_nil _
    | @start j x r t creator running waiting created captured =>
      have hbegun : (p.move (.start j x r) (p.search.startTask j t x r)).begun F A i =
          p.begun F A i := by
        cases hold : p.search.activations[i]? with
        | some a =>
          have hlt := (List.getElem?_eq_some_iff.mp hold).1
          simp [PrintState.begun, PrintState.move, List.getElem?_append_left hlt, hold]
        | none =>
          rw [PrintState.begun, PrintState.begun, hold]
          split
          · next c hc =>
            rcases SearchState.of_getElem?_startTask hc with h | ⟨-, rfl⟩
            · rw [hold] at h
              exact absurd h (by simp)
            · rw [Activation.message_enter, List.take_nil]
          · rfl
      rw [hbegun]
      exact List.append_nil _

/-- The same for a run. -/
theorem begun_append (h : Transition.Run (PrintStep F A) p ks p') (i : ℕ) :
    p.begun F A i ++ outputOf i ks = messagesOf i ks ++ p'.begun F A i := by
  induction h with
  | nil p => exact List.append_nil _
  | @cons p u p' k ks first _ ih =>
    calc p.begun F A i ++ outputOf i (k :: ks)
        = (p.begun F A i ++ outputOf i [k]) ++ outputOf i ks := by
          rw [outputOf_cons, List.append_assoc]
      _ = messagesOf i [k] ++ (u.begun F A i ++ outputOf i ks) := by
          rw [first.begun_append i, List.append_assoc]
      _ = messagesOf i (k :: ks) ++ p'.begun F A i := by
          rw [ih, ← List.append_assoc, ← messagesOf_cons]

/-- What is in `cout` is what was written. -/
theorem cout_eq (h : Transition.Run (PrintStep F A) p ks p') :
    p'.cout = p.cout ++ writtenBy ks := by
  induction h with
  | nil p => exact (List.append_nil _).symm
  | @cons p u p' k ks first _ ih =>
    cases first with
    | write active next =>
      rw [ih]
      exact List.append_assoc _ _ _
    | step move complete => exact ih

/-- **Between two lines nobody is in the middle of one.** -/
theorem PrintStep.endsLine (h : PrintStep F A p k p')
    (hp : EndsLine p.cout ∨ p.Midline F A) : EndsLine p'.cout ∨ p'.Midline F A := by
  cases h with
  | @write i c a active next =>
    obtain ⟨hlt, hget⟩ := List.getElem?_eq_some_iff.mp next
    by_cases hlast : p.written i + 1 = (a.message F A).length
    · -- the last character of a line
      refine Or.inl fun d hd => ?_
      obtain ⟨L, prio, hmessage⟩ := Activation.exists_of_mem_message
        (hget ▸ List.getElem_mem hlt)
      have hnewline : (a.message F A).getLast? = some c := by
        rw [List.getLast?_eq_getElem?, ← hlast, Nat.add_sub_cancel]
        exact next
      rw [hmessage, getLast?_spawnMessage] at hnewline
      have hcd : some c = some d := by
        rw [← Option.mem_def.mp hd]
        exact List.getLast?_concat.symm
      exact (Option.some.inj (hnewline.trans hcd)).symm
    · refine Or.inr ⟨i, a, active, ?_, ?_⟩
      · simp [PrintState.write]
      · simp only [PrintState.write, Function.update_self]
        omega
  | @step ℓ s move complete =>
    rcases hp with hp | ⟨i, a, active, hpos, hlt⟩
    · exact Or.inl hp
    · refine Or.inr ⟨i, a, ?_, ?_⟩
      · obtain ⟨hstep, -⟩ := move
        cases hstep with
        | @act j b _ e _ _ _ _ _ =>
          have hji : j ≠ i := by
            rintro rfl
            have hfull := complete j e a rfl active
            omega
          exact (List.getElem?_set_ne hji).trans active
        | start =>
          exact (List.getElem?_append_left (List.getElem?_eq_some_iff.mp active).1).trans active
      · cases ℓ with
        | act j e =>
          have hij : i ≠ j := by
            rintro rfl
            have hfull := complete i e a rfl active
            omega
          simp only [PrintState.move, Function.update_of_ne hij]
          exact ⟨hpos, hlt⟩
        | start => exact ⟨hpos, hlt⟩

theorem PrintStep.printedChar (h : PrintStep F A p k p') (hp : ∀ c ∈ p.cout, PrintedChar c) :
    ∀ c ∈ p'.cout, PrintedChar c := by
  cases h with
  | @write i c a active next =>
    intro d hd
    rcases List.mem_append.mp hd with hd | hd
    · exact hp d hd
    · rw [List.mem_singleton.mp hd]
      have hmem := List.mem_of_getElem? next
      obtain ⟨L, prio, hmessage⟩ := Activation.exists_of_mem_message hmem
      rw [hmessage] at hmem
      exact printedChar_spawnMessage hmem
  | step => exact hp

/-! ## The simulation -/

/-- What holds of the region that prints. -/
structure PrintInv (F : AF) (A : VectorBitSet) (q : ℕ) (p : PrintState) : Prop where
  search : SearchInv F A q p.search
  written : ∀ i a, p.search.activations[i]? = some a → p.written i ≤ (a.message F A).length
  unused : ∀ i, p.search.activations.length ≤ i → p.written i = 0

theorem printInv_init : PrintInv F A q (.init q proof) where
  search := searchInv_init
  written := fun _ _ _ => Nat.zero_le _
  unused := fun _ _ => rfl

theorem PrintInv.step (hin : SearchInput F A q) (hinv : PrintInv F A q p)
    (h : PrintStep F A p k p') : PrintInv F A q p' := by
  cases h with
  | @write i c a active next =>
    obtain ⟨hlt, -⟩ := List.getElem?_eq_some_iff.mp active
    refine ⟨hinv.search, fun j b hb => ?_, fun j hj => ?_⟩
    · by_cases hji : j = i
      · subst hji
        obtain rfl := Option.some.inj (active.symm.trans hb)
        have hnext := (List.getElem?_eq_some_iff.mp next).1
        simp only [PrintState.write, Function.update_self]
        omega
      · simp only [PrintState.write, Function.update_of_ne hji]
        exact hinv.written j b hb
    · have hji : j ≠ i := by
        rintro rfl
        exact absurd hlt (not_lt.mpr hj)
      simp only [PrintState.write, Function.update_of_ne hji]
      exact hinv.unused j hj
  | @step ℓ s move complete =>
    have hsearch := hinv.search.step hin move
    obtain ⟨hstep, -⟩ := move
    cases hstep with
    | @act i a _ e _ running active _ advance =>
      refine ⟨hsearch, fun j b hb => ?_, fun j hj => ?_⟩
      · rcases getElem?_set_of_eq active hb with ⟨rfl, -⟩ | ⟨hji, hold⟩
        · simp [PrintState.move]
        · simp only [PrintState.move, Function.update_of_ne hji]
          exact hinv.written j b hold
      · have hold : p.search.activations.length ≤ j := by
          simpa [PrintState.move] using hj
        have hji : j ≠ i := by
          rintro rfl
          exact absurd (List.getElem?_eq_some_iff.mp active).1 (not_lt.mpr hold)
        simp only [PrintState.move, Function.update_of_ne hji]
        exact hinv.unused j hold
    | @start i x r t creator running waiting created captured =>
      refine ⟨hsearch, fun j b hb => ?_, fun j hj => ?_⟩
      · rcases SearchState.of_getElem?_startTask hb with hold | ⟨hj, -⟩
        · exact hinv.written j b hold
        · exact (hinv.unused j hj.ge).le.trans (Nat.zero_le _)
      · refine hinv.unused j ((Nat.le_succ _).trans ?_)
        simpa [PrintState.move] using hj

/-- The longest message that a search among the active arguments may write. -/
def messageBound (A : VectorBitSet) : ℕ := 57 + 11 * A.vector.length

/-- **Messages are bounded**: the extension lies among the active arguments. -/
theorem Activation.Ok.length_message_le (hok : a.Ok F A q) (hin : SearchInput F A q) :
    (a.message F A).length ≤ messageBound A := by
  cases hmessage : a.message F A with
  | nil => exact Nat.zero_le _
  | cons c rest =>
    have hpoint : a.point = .answered := by
      by_contra hne
      unfold Activation.message at hmessage
      split at hmessage
      · next heq => exact hne heq
      · exact absurd hmessage.symm (List.cons_ne_nil c rest)
    cases hanswer : a.onAnswer F A with
    | mk b e =>
      have hadv : a.advance F A false none = some (b, e) := by
        rw [Activation.advance_answered hpoint, hanswer]
      have heq := Activation.message_of_advance hadv
      rw [hmessage] at heq
      rw [heq]
      cases e with
      | spawn L prio =>
        have hadvanced := Activation.advanced_of_advance hadv
        obtain ⟨hL, -⟩ := hok.spawned hin hadvanced
        have hprio : prio < 10 ^ 10 := by
          cases hadvanced with
          | spawn point sat found passes omits priority =>
            obtain ⟨⟨x, -, rfl⟩, -⟩ := isGreatest_calculatePriority priority
            unfold priorityOf u32
            omega
        have hmem : ∀ x ∈ L, x ∈ A.vector := fun x hx => hL.admissible.subset hx
        have hids : ∀ x ∈ L, x < 10 ^ 10 := by
          intro x hx
          have hbound := hin.coherent.bound
          have hrange := (hin.range x (hmem x hx)).2
          omega
        have hsize : L.length ≤ A.vector.length := (List.subperm_of_subset hL.nodup hmem).length_le
        have hlist := Ostream.length_insertBetween_le (by decide) hids
        have hdigits := (Nat.length_toDigits_le_iff (by decide) (by decide)).mpr hprio
        have hphrases : extensionPhrase.length = 24 ∧ priorityPhrase.length = 22 := by decide
        have hmul := Nat.mul_le_mul_left 11 hsize
        simp only [Effect.message, spawnMessage, printList, Ostream.insertUnsigned,
          List.length_append, List.length_singleton, hphrases, messageBound]
        omega
      | _ => exact Nat.zero_le _

/-- What the activations may still write before they move. -/
def PrintState.unwritten (A : VectorBitSet) (p : PrintState) : ℕ :=
  ∑ i ∈ Finset.range p.search.activations.length, (messageBound A - p.written i)

theorem PrintInv.unwritten_lt (hin : SearchInput F A q) (hinv : PrintInv F A q p)
    (h : PrintStep F A p k p') (hk : k.shown = none) : p'.unwritten A < p.unwritten A := by
  cases h with
  | @write i c a active next =>
    obtain ⟨hi, -⟩ := List.getElem?_eq_some_iff.mp active
    have hlt := (List.getElem?_eq_some_iff.mp next).1
    have hbound := (hinv.search.activations i a active).length_message_le hin
    refine Finset.sum_lt_sum (fun j _ => ?_) ⟨i, Finset.mem_range.mpr hi, ?_⟩
    · by_cases hji : j = i
      · subst hji
        simp only [PrintState.write, Function.update_self]
        omega
      · simp only [PrintState.write, Function.update_of_ne hji]
        exact le_rfl
    · simp only [PrintState.write, Function.update_self]
      omega
  | step move complete => exact absurd hk (Option.some_ne_none _)

theorem PrintStep.unwritten_le (h : PrintStep F A p k p') :
    p'.unwritten A ≤ p.unwritten A + messageBound A := by
  cases h with
  | @write i c a active next =>
    refine le_trans (Finset.sum_le_sum fun j _ => ?_) (Nat.le_add_right _ _)
    by_cases hji : j = i
    · subst hji
      simp only [PrintState.write, Function.update_self]
      omega
    · simp only [PrintState.write, Function.update_of_ne hji]
      exact le_rfl
  | @step ℓ s move complete =>
    obtain ⟨hstep, -⟩ := move
    cases hstep with
    | @act i a b e answer running active answers advance =>
      have hi := (List.getElem?_eq_some_iff.mp active).1
      have hlen : (p.move (.act i e) (p.search.apply i b e)).search.activations.length =
          p.search.activations.length := by simp [PrintState.move]
      have hterm : ∀ j, messageBound A - (p.move (.act i e) (p.search.apply i b e)).written j ≤
          (messageBound A - p.written j) + if j = i then messageBound A else 0 := by
        intro j
        by_cases hji : j = i
        · rw [if_pos hji]
          omega
        · simp only [PrintState.move, Function.update_of_ne hji]
          omega
      rw [PrintState.unwritten, hlen]
      refine (Finset.sum_le_sum fun j _ => hterm j).trans ?_
      rw [Finset.sum_add_distrib, Finset.sum_ite_eq', if_pos (Finset.mem_range.mpr hi)]
      exact le_rfl
    | @start i x r t creator running waiting created captured =>
      have hlen : (p.move (.start i x r) (p.search.startTask i t x r)).search.activations.length =
          p.search.activations.length + 1 := by simp [PrintState.move]
      rw [PrintState.unwritten, hlen, Finset.sum_range_succ]
      exact Nat.add_le_add_left (Nat.sub_le _ _) _

/-- **Printing refines the search.**  Character by character, the region shows the steps of
the search, and between them the search stands still. -/
theorem printing_simulation (hin : SearchInput F A q) :
    Transition.Simulation (PrintStep F A) (LawfulStep F A) PrintState.search PrintAction.shown
      (PrintInv F A q) where
  preserves := fun _ _ _ hinv h => hinv.step hin h
  shows := by
    intro p k p' ℓ _ h hk
    cases h with
    | write => exact absurd hk.symm (Option.some_ne_none ℓ)
    | step move complete =>
      obtain rfl := Option.some.inj hk
      exact move
  stutters := by
    intro p k p' _ h hk
    cases h with
    | write => rfl
    | step move complete => exact absurd hk (Option.some_ne_none _)

/-- An activation that can move can write or move. -/
theorem PrintInv.exists_step (hinv : PrintInv F A q p) {ℓ : Action} {s : SearchState}
    (h : LawfulStep F A p.search ℓ s) : ∃ k p', PrintStep F A p k p' := by
  by_cases hcomplete : ∀ i e a, ℓ = .act i e → p.search.activations[i]? = some a →
      p.written i = (a.message F A).length
  · exact ⟨_, _, .step h hcomplete⟩
  · push Not at hcomplete
    obtain ⟨i, e, a, -, active, hne⟩ := hcomplete
    have hlt := lt_of_le_of_ne (hinv.written i a active) hne
    exact ⟨_, _, .write active (List.getElem?_eq_getElem hlt)⟩

/-- **What the search settles on, it settles on when it prints.** -/
theorem printing_settles (hin : SearchInput F A q) {post : SearchState → Prop}
    (h : Transition.Settles (LawfulStep F A) (.init q proof) post) :
    Transition.Settles (PrintStep F A) (.init q proof) fun p => post p.search :=
  (printing_simulation hin).settles (t := .init q proof) (ψ := PrintState.unwritten A)
    (c := messageBound A) printInv_init
    (fun _ _ _ hinv hstep hk => hinv.unwritten_lt hin hstep hk)
    (fun _ _ _ _ hstep => hstep.unwritten_le)
    (fun _ hinv hstuck _ _ hstep =>
      have ⟨_, _, hfine⟩ := hinv.exists_step hstep
      hstuck _ _ hfine) h

/-- An activation can write out the rest of its message. -/
theorem exists_writes (ha : p.search.activations[i]? = some a) (n : ℕ)
    (hn : p.written i + n = (a.message F A).length) :
    ∃ ks p', Transition.Run (PrintStep F A) p ks p' ∧ ks.filterMap PrintAction.shown = [] ∧
      p'.search = p.search ∧ p'.written = Function.update p.written i (a.message F A).length := by
  induction n generalizing p with
  | zero =>
    refine ⟨[], p, .nil p, rfl, rfl, ?_⟩
    rw [← hn, Nat.add_zero, Function.update_eq_self]
  | succ n ih =>
    have hlt : p.written i < (a.message F A).length := by omega
    have hwrite := PrintStep.write ha (List.getElem?_eq_getElem hlt)
    obtain ⟨ks, p', hrun, hshown, hsearch, hwritten⟩ :=
      ih (p := p.write i (a.message F A)[p.written i]) ha (by
        simp only [PrintState.write, Function.update_self]
        omega)
    refine ⟨_, p', .cons hwrite hrun, hshown, hsearch, ?_⟩
    rw [hwritten, PrintState.write, Function.update_idem]

/-- **Every run of the search can be printed**: with the messages written without a pause,
the region shows it. -/
theorem exists_printing_run {s s' : SearchState} {ls : List Action}
    (h : Transition.Run (LawfulStep F A) s ls s') (hs : p.search = s)
    (hp : p.written = fun _ => 0) :
    ∃ ks p', Transition.Run (PrintStep F A) p ks p' ∧ ks.filterMap PrintAction.shown = ls ∧
      p'.search = s' := by
  induction h generalizing p with
  | nil s => exact ⟨[], p, .nil p, rfl, hs⟩
  | @cons s u s' ℓ ls first _ ih =>
    subst hs
    cases ℓ with
    | start k x r =>
      have hmove := PrintStep.step first (by intro i e a h; cases h)
      obtain ⟨ks, p', hrun, hshown, hend⟩ := ih (p := p.move (.start k x r) u) rfl hp
      exact ⟨_, p', .cons hmove hrun, by rw [← hshown]; rfl, hend⟩
    | act i e =>
      obtain ⟨a, active⟩ : ∃ a, p.search.activations[i]? = some a := by
        cases first.1 with
        | act running active => exact ⟨_, active⟩
      obtain ⟨ks₁, p₁, hrun₁, hshown₁, hsearch, hwritten⟩ :=
        exists_writes (F := F) (A := A) (p := p) active _ (by rw [hp]; exact Nat.zero_add _)
      rw [← hsearch] at first active
      have hmove := PrintStep.step first (by
        intro j e' b h hb
        cases h
        obtain rfl := Option.some.inj (active.symm.trans hb)
        rw [hwritten, Function.update_self])
      obtain ⟨ks, p', hrun, hshown, hend⟩ := ih (p := p₁.move (.act i e) u) rfl (by
        rw [PrintState.move]
        simp only [hwritten, Function.update_idem]
        rw [hp]
        exact Function.update_eq_self i _)
      refine ⟨ks₁ ++ .step (.act i e) :: ks, p', hrun₁.append (.cons hmove hrun), ?_, hend⟩
      rw [List.filterMap_append, hshown₁, ← hshown]
      rfl

/-- The text of a region that has finished: what the activations wrote, each one its
messages in order, and nothing else. -/
structure PrintedText (ks : List PrintAction) (cout : List Char) : Prop where
  written : cout = writtenBy ks
  complete : ∀ i, outputOf i ks = messagesOf i ks
  endsLine : EndsLine cout
  chars : ∀ c ∈ cout, PrintedChar c

/-- **What the region has printed when it has finished.** -/
theorem printing_output (h : Transition.Run (PrintStep F A) (.init q proof) ks p)
    (hfin : p.search.Finished) : PrintedText ks p.cout := by
  have hmessage : ∀ (i : ℕ) (a : Activation), p.search.activations[i]? = some a →
      a.message F A = [] := fun i a ha =>
    Activation.message_of_returned (hfin.returned a (List.mem_of_getElem? ha))
  refine ⟨cout_eq h, fun i => ?_, ?_, ?_⟩
  · have hbegun : p.begun F A i = [] := by
      rw [PrintState.begun]
      split
      · next a ha => rw [hmessage i a ha, List.take_nil]
      · rfl
    have hinit : (PrintState.init q proof).begun F A i = [] := by
      rw [PrintState.begun]
      split
      · exact List.take_zero
      · rfl
    have happend := begun_append h i
    rwa [hbegun, hinit, List.append_nil, List.nil_append] at happend
  · have hends : EndsLine p.cout ∨ p.Midline F A :=
      h.invariant (P := fun p => EndsLine p.cout ∨ p.Midline F A)
        (fun _ _ _ hp hstep => hstep.endsLine hp)
        (Or.inl endsLine_nil)
    refine hends.resolve_right ?_
    rintro ⟨i, a, ha, -, hlt⟩
    rw [hmessage i a ha] at hlt
    exact absurd hlt (Nat.not_lt_zero _)
  · exact h.invariant (P := fun p => ∀ c ∈ p.cout, PrintedChar c)
      (fun _ _ _ hp hstep => hstep.printedChar hp) fun c hc => absurd hc List.not_mem_nil

/-- `Solver_DS_PR::solve` with what it prints: it returns under every schedule in which each task
sees the argument and the flag of its creator, and the framework it leaves, its answer, any list
that it may leave and the text satisfy `post`. -/
def SolvePrinting (F : AF) (argument : ℕ) (proofExtension : List ℕ)
    (post : AF → Bool → List ℕ → List Char → Prop) : Prop :=
  ∃ F' result initialReduct, process F argument ⟨[], []⟩ = some (F', result, initialReduct) ∧
    match result with
    | .accepted => post F' true proofExtension []
    | .rejected => post F' false proofExtension []
    | .unknown => Transition.Settles (PrintStep F' initialReduct) (.init argument proofExtension)
        fun p => p.search.Finished ∧
          ∀ L, p.search.MayLeave L → post F' (!p.search.flag) L p.cout

/-- **What holds of a call holds of one that prints**, and the text consists of whole lines. -/
theorem Solve.printing {post : AF → Bool → List ℕ → Prop} (h : Solve F q proof post)
    (hF : F.Coherent) (hq : q ∈ F.args) : SolvePrinting F q proof fun F' answer L cout =>
      post F' answer L ∧ EndsLine cout ∧ ∀ c ∈ cout, PrintedChar c := by
  have hnone : ∀ c ∈ ([] : List Char), PrintedChar c := fun c hc => absurd hc List.not_mem_nil
  obtain ⟨F', result, out, hproc, hsolve⟩ := h
  refine ⟨F', result, out, hproc, ?_⟩
  cases result with
  | accepted => exact ⟨hsolve, endsLine_nil, hnone⟩
  | rejected => exact ⟨hsolve, endsLine_nil, hnone⟩
  | unknown =>
    have hin := (processResult_of_eq hF hq hproc).searchInput hF hq
    refine (printing_settles hin hsolve).mono fun ks p hrun hend => ?_
    have htext := printing_output hrun hend.1
    exact ⟨hend.1, fun L hL => ⟨hend.2 L hL, htext.endsLine, htext.chars⟩⟩

/-- **Printing changes nothing but the output.**  For every postcondition that
`check_rejection_parallel` has as an atomic search, the region that prints has it too; the runs
that it shows are exactly those of the search in which each task sees the argument and the flag of
its creator; and when it has finished, every activation
has written its lines, in order and complete, and the text ends at the end of a line. -/
theorem checkRejectionParallel_printing (W : WellFormed) (A : ActiveArgs W.n) {q : ℕ}
    (hq : q ∈ A.vector) (hself : ¬ W.af.att q q) (proof : List ℕ) :
    (∀ post, CheckRejectionParallel W.af A.toVectorBitSet q proof post →
      Transition.Settles (PrintStep W.af A.toVectorBitSet) (.init q proof) fun p =>
        p.search.Finished ∧ ∀ L, p.search.MayLeave L → post p.search.flag L) ∧
    (∀ ls s, Transition.Run (LawfulStep W.af A.toVectorBitSet) (.init q proof) ls s ↔
      ∃ ks p, Transition.Run (PrintStep W.af A.toVectorBitSet) (.init q proof) ks p ∧
        ks.filterMap PrintAction.shown = ls ∧ p.search = s) ∧
    ∀ ks p, Transition.Run (PrintStep W.af A.toVectorBitSet) (.init q proof) ks p →
      p.search.Finished → PrintedText ks p.cout := by
  have hin := W.searchInput A hq hself
  refine ⟨fun post h => printing_settles hin h, fun ls s => ⟨fun h => ?_, ?_⟩,
    fun ks p h hfin => printing_output h hfin⟩
  · exact exists_printing_run h rfl rfl
  · rintro ⟨ks, p, h, rfl, rfl⟩
    exact (printing_simulation hin).run h printInv_init

theorem checkRejectionParallel_printing_choice :
    ∃ ks p, Transition.Run (PrintStep choiceFramework.af choiceActive.toVectorBitSet)
        (.init 1 []) ks p ∧ p.search.Finished ∧ PrintedText ks p.cout := by
  obtain ⟨hsettles, -, htext⟩ := checkRejectionParallel_printing choiceFramework choiceActive
    (q := 1) (by decide) (by decide) []
  obtain ⟨ks, p, hrun, -, hfin, -⟩ := (hsettles (fun _ _ => True)
    ((settles (choiceFramework.searchInput choiceActive (by decide) (by decide)) []).mono
      fun _ _ _ hend => ⟨hend.1, fun _ _ => trivial⟩)).exists_end
  exact ⟨ks, p, hrun, hfin, htext ks p hrun hfin⟩

end AFAnalyzer
