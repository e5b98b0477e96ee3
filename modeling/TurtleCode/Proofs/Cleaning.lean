import Mathlib.Data.List.Forall2
import TurtleCode.Link.Cleanup
import TurtleCode.Proofs.Phrases
import TurtleCode.Proofs.Resolution

/-!
# What cleaning the heap changes

Cleaning looks at every line by itself.  A line either stays as it is, or one clearing of the heap
is put in, before the last jump or at the end.  It is then cleared at that place, so a second pass
finds nothing to do.

* `Line.Cut`: a line in two parts, between which the heap is cleared.
* `Line.Untidy`: the clearing is wanted and missing.
* `tidyLine`: a line as cleaning leaves it, `tidyLine_of_untidy`, `tidyLine_of_not_untidy`: what
  that is.
* `tidyLine_instructions`: complete instructions stay complete instructions.
* `cleanupLines_minimal`: what cleaning makes of all lines.
-/

namespace TurtleCode

theorem exists_last {α : Type} (p : α → Prop) (l : List α) : (∀ x ∈ l, ¬ p x) ∨
    ∃ before x after, l = before ++ x :: after ∧ p x ∧ ∀ y ∈ after, ¬ p y := by
  induction l with
  | nil => exact .inl (by simp)
  | cons first l ih =>
    rcases ih with hnone | ⟨before, x, after, rfl, hx, hafter⟩
    · by_cases hfirst : p first
      · exact .inr ⟨[], first, l, rfl, hfirst, hnone⟩
      · exact .inl (List.forall_mem_cons.mpr ⟨hfirst, hnone⟩)
    · exact .inr ⟨first :: before, x, after, rfl, hx, hafter⟩

/-! ## Where a line is cleared -/

namespace Line

/-- The two parts of a line between which the heap is cleared: the second one begins with the last
jump of the line, or it is empty and there is no jump. -/
inductive Cut : Line → Line → Prop
  | jump {before after : Line} : .op .jump ∉ after → Cut before (.op .jump :: after)
  | ending {before : Line} : .op .jump ∉ before → Cut before []

/-- A line in two parts makes strings, calls nothing, and the heap is not cleared between the
parts. -/
structure Untidy (before after : Line) : Prop where
  builds : ∃ op, .op op ∈ before ++ after ∧ op.buildsString = true
  silent : .op .subr ∉ before ++ after
  uncleared : before.getLast? ≠ some (.op .hclr)

theorem exists_cut (line : Line) : ∃ before after, line = before ++ after ∧ Cut before after := by
  rcases exists_last (· = .op .jump) line with hnone | ⟨before, _, after, rfl, rfl, hafter⟩
  · exact ⟨line, [], (List.append_nil line).symm, .ending fun hm => hnone _ hm rfl⟩
  · exact ⟨before, _, rfl, .jump fun hm => hafter _ hm rfl⟩

variable {before after : Line}

theorem Cut.concat (h : Cut before after) {word : Word} (hword : word ≠ .op .jump) :
    Cut (before ++ [word]) after := by
  cases h with
  | jump hafter => exact .jump hafter
  | ending hbefore => exact .ending (by simp [hbefore, Ne.symm hword])

theorem splitLastJump_of_not_mem {line : Line} (h : .op .jump ∉ line) :
    splitLastJump line = (line, []) := by
  induction line with
  | nil => rfl
  | cons word rest ih =>
    obtain ⟨hword, hrest⟩ := not_or.mp (mt List.mem_cons.mpr h)
    rw [splitLastJump, ih hrest]
    simp [Ne.symm hword]

theorem Cut.splitLastJump (h : Cut before after) :
    splitLastJump (before ++ after) = (before, after) := by
  cases h with
  | ending hbefore => rw [List.append_nil, splitLastJump_of_not_mem hbefore]
  | @jump rest hrest =>
    induction before with
    | nil =>
      rw [List.nil_append, TurtleCode.splitLastJump, splitLastJump_of_not_mem hrest]
      simp
    | cons word before ih =>
      rw [List.cons_append, TurtleCode.splitLastJump, ih]
      simp

end Line

/-! ## One line -/

def tidyLine (line : Line) : Line :=
  (if needsCleanup line then cleanupLine? line else none).getD line

open Line

theorem needsCleanup_iff {line : Line} : needsCleanup line = true ↔
    (∃ op, .op op ∈ line ∧ op.buildsString = true) ∧ .op .subr ∉ line := by
  simp [needsCleanup, Line.mem_opcodes, and_comm]

variable {before after : Line}

theorem tidyLine_of_untidy (hcut : Cut before after) (h : Untidy before after) :
    tidyLine (before ++ after) = before ++ .op .hclr :: after := by
  rw [tidyLine, if_pos (needsCleanup_iff.mpr ⟨h.builds, h.silent⟩),
    cleanupLine?, hcut.splitLastJump]
  simp [h.uncleared]

theorem tidyLine_of_not_untidy (hcut : Cut before after) (h : ¬ Untidy before after) :
    tidyLine (before ++ after) = before ++ after := by
  rw [tidyLine]
  split
  · next hneeds =>
    obtain ⟨hbuilds, hsilent⟩ := needsCleanup_iff.mp hneeds
    have hcleared : before.getLast? = some (.op .hclr) := by
      by_contra hlast
      exact h ⟨hbuilds, hsilent, hlast⟩
    rw [cleanupLine?, hcut.splitLastJump]
    simp [hcleared]
  · rfl

theorem tidyLine_tidyLine (line : Line) : tidyLine (tidyLine line) = tidyLine line := by
  obtain ⟨before, after, rfl, hcut⟩ := exists_cut line
  by_cases h : Untidy before after
  · have hcleared : ¬ Untidy (before ++ [.op .hclr]) after := fun hu => hu.uncleared (by simp)
    rw [tidyLine_of_untidy hcut h, List.append_cons,
      tidyLine_of_not_untidy (hcut.concat (by simp)) hcleared]
  · rw [tidyLine_of_not_untidy hcut h, tidyLine_of_not_untidy hcut h]

theorem ne_of_cleanupLine? {line cleaned : Line} (h : cleanupLine? line = some cleaned) :
    cleaned ≠ line := by
  obtain ⟨before, after, rfl, hcut⟩ := exists_cut line
  rw [cleanupLine?, hcut.splitLastJump] at h
  dsimp only at h
  split at h
  · cases h
  · obtain rfl := Option.some.inj h
    intro he
    have hlength := congrArg List.length he
    simp at hlength

/-! ## Instructions -/

namespace Instruction

variable {is : List Instruction}

theorem call_not_mem_words (i : Instruction) (index : UInt64) : Word.call index ∉ i.words := by
  simp [Instruction.words, instr]

theorem call_not_mem_line (is : List Instruction) (index : UInt64) :
    Word.call index ∉ is.flatMap Instruction.words := by
  intro h
  obtain ⟨i, _, hi⟩ := List.mem_flatMap.mp h
  exact i.call_not_mem_words index hi

theorem op_mem_words {op : Opcode} :
    .op op ∈ is.flatMap Instruction.words ↔ ∃ i ∈ is, i.op = op := by
  simp [Instruction.words, instr, eq_comm]

theorem exists_cut (is : List Instruction) : ∃ before after : List Instruction,
    is = before ++ after ∧ (∀ i ∈ after.head?, i.op = .jump) ∧
      Cut (before.flatMap Instruction.words) (after.flatMap Instruction.words) := by
  rcases exists_last (fun i : Instruction => i.op = .jump) is with
    hnone | ⟨before, ⟨_, operands⟩, after, rfl, rfl, hafter⟩
  · refine ⟨is, [], (List.append_nil is).symm, by simp, .ending ?_⟩
    rw [op_mem_words]
    rintro ⟨i, hi, hop⟩
    exact hnone i hi hop
  · refine ⟨before, _, rfl, by simp, .jump ?_⟩
    intro hm
    rcases List.mem_append.mp hm with hm | hm
    · simp at hm
    · obtain ⟨i, hi, hop⟩ := op_mem_words.mp hm
      exact hafter i hi hop

theorem values_line (is : List Instruction) :
    (is.flatMap Instruction.words).map Word.value = is.flatMap Instruction.values := by
  rw [List.map_flatMap]
  congr
  funext i
  simp [Instruction.words, instr, Instruction.values, Word.value, Function.comp_def]

theorem decode_lowered (k : Nat) (hc : ∀ i ∈ is, i.Complete) :
    (lowerLine k (is.flatMap Instruction.words) >>= decodeLine k) = .ok is := by
  rw [lowerLine_ok k _ (call_not_mem_line is), values_line]
  show decodeLine k _ = _
  rw [decodeLine, decode_values is hc]

end Instruction

/-- Cleaning leaves the instructions of a line as they are, or clears the heap before one of them
that is a jump, or at the end. -/
theorem tidyLine_instructions (is : List Instruction) : ∃ js : List Instruction,
    tidyLine (is.flatMap Instruction.words) = js.flatMap Instruction.words ∧
      (js = is ∨ ∃ before after, is = before ++ after ∧ js = before ++ ⟨.hclr, []⟩ :: after ∧
        ∀ i ∈ after.head?, i.op = .jump) := by
  obtain ⟨before, after, rfl, hjump, hcut⟩ := Instruction.exists_cut is
  rw [List.flatMap_append]
  by_cases h : Untidy (before.flatMap Instruction.words) (after.flatMap Instruction.words)
  · refine ⟨before ++ ⟨.hclr, []⟩ :: after, ?_, .inr ⟨before, after, rfl, rfl, hjump⟩⟩
    rw [tidyLine_of_untidy hcut h, List.flatMap_append]
    rfl
  · refine ⟨before ++ after, ?_, .inl rfl⟩
    rw [tidyLine_of_not_untidy hcut h, List.flatMap_append]

/-! ## All lines -/

theorem cleanupFrom_fst (address : Nat) (lines : List Line) :
    (cleanupFrom address lines).1 = lines.map tidyLine := by
  induction lines generalizing address with
  | nil => rfl
  | cons line rest ih =>
    rw [cleanupFrom, List.map_cons, ← ih (address + 1), tidyLine]
    dsimp only
    split
    · next cleaned h => rw [h]; rfl
    · next h => rw [h]; rfl

theorem cleanupFrom_cons (address : Nat) (line : Line) (rest : List Line) :
    cleanupFrom address (line :: rest) = (tidyLine line :: (cleanupFrom (address + 1) rest).1,
      if tidyLine line = line then (cleanupFrom (address + 1) rest).2
      else address :: (cleanupFrom (address + 1) rest).2) := by
  rw [cleanupFrom, tidyLine]
  dsimp only
  cases h : (if needsCleanup line then cleanupLine? line else none) with
  | none => simp
  | some cleaned =>
    have hne : cleaned ≠ line := by
      split at h
      · exact ne_of_cleanupLine? h
      · cases h
    simp [hne]

theorem cleanupFrom_snd (address : Nat) (lines : List Line) : (cleanupFrom address lines).2 =
    ((List.range lines.length).filter fun k => (lines.map tidyLine)[k]? ≠ lines[k]?).map
      (address + ·) := by
  induction lines generalizing address with
  | nil => rfl
  | cons line rest ih =>
    have hshift : (fun k => address + 1 + k) = (fun k => address + k) ∘ Nat.succ := by
      funext k
      show address + 1 + k = address + (k + 1)
      omega
    rw [cleanupFrom_cons, ih, List.length_cons, List.range_succ_eq_map, List.filter_cons,
      List.filter_map, hshift, ← List.map_map]
    by_cases h : tidyLine line = line
    · simp [h, Function.comp_def]
    · simp [h, Function.comp_def]

/-- What cleaning makes of a line: one clearing of the heap is put in before the last jump, or at
the end, exactly if it is wanted and missing there. -/
def Line.CleanedTo (line out : Line) : Prop :=
  ∃ before after, line = before ++ after ∧ Cut before after ∧
    (Untidy before after ∧ out = before ++ .op .hclr :: after ∨ ¬ Untidy before after ∧ out = line)

theorem tidyLine_cleanedTo (line : Line) : line.CleanedTo (tidyLine line) := by
  obtain ⟨before, after, rfl, hcut⟩ := exists_cut line
  refine ⟨before, after, rfl, hcut, ?_⟩
  by_cases h : Untidy before after
  · exact .inl ⟨h, tidyLine_of_untidy hcut h⟩
  · exact .inr ⟨h, tidyLine_of_not_untidy hcut h⟩

/-- **Cleaning the heap changes as little as possible.**  There are as many lines as before.  A line
gains one clearing if it makes strings, calls nothing and is not cleared before its last jump, or at
its end if it has no jump; the clearing stands there.  All other lines stay as they are.  The lines
that changed are listed, and a second cleaning changes none.  A line of complete instructions stays
one: what it is lowered to decodes to these instructions, with the heap cleared before one of them
that is a jump or at the end, if at all. -/
theorem cleanupLines_minimal (lines : List Line) :
    List.Forall₂ Line.CleanedTo lines (cleanupLines lines).1 ∧
    (cleanupLines lines).2 =
      (List.range lines.length).filter (fun k => (cleanupLines lines).1[k]? ≠ lines[k]?) ∧
    cleanupLines (cleanupLines lines).1 = ((cleanupLines lines).1, []) ∧
    ∀ (k : Nat) (is : List Instruction), (∀ i ∈ is, i.Complete) →
      lines[k]? = some (is.flatMap Instruction.words) →
      ∃ js, (cleanupLines lines).1[k]? = some (js.flatMap Instruction.words) ∧
        (∀ i ∈ js, i.Complete) ∧
        (lowerLine k (js.flatMap Instruction.words) >>= decodeLine k) = .ok js ∧
        (js = is ∨ ∃ before after, is = before ++ after ∧ js = before ++ ⟨.hclr, []⟩ :: after ∧
          ∀ i ∈ after.head?, i.op = .jump) := by
  have hlines : (cleanupLines lines).1 = lines.map tidyLine := cleanupFrom_fst 0 lines
  have htwice : (lines.map tidyLine).map tidyLine = lines.map tidyLine := by
    rw [List.map_map]
    exact List.map_congr_left fun line _ => tidyLine_tidyLine line
  rw [hlines]
  refine ⟨?_, ?_, ?_, ?_⟩
  · rw [List.forall₂_map_right_iff, List.forall₂_same]
    exact fun line _ => tidyLine_cleanedTo line
  · rw [cleanupLines, cleanupFrom_snd]
    simp
  · refine Prod.ext ?_ ?_
    · exact (cleanupFrom_fst 0 _).trans htwice
    · rw [cleanupLines, cleanupFrom_snd, htwice]
      simp
  · intro k is hc hk
    obtain ⟨js, htidy, hjs⟩ := tidyLine_instructions is
    have hcomplete : ∀ i ∈ js, i.Complete := by
      rcases hjs with rfl | ⟨before, after, rfl, rfl, _⟩
      · exact hc
      · obtain ⟨hbefore, hafter⟩ := List.forall_mem_append.mp hc
        exact List.forall_mem_append.mpr ⟨hbefore, List.forall_mem_cons.mpr
          ⟨Instruction.complete_of_length (by decide) rfl, hafter⟩⟩
    refine ⟨js, ?_, hcomplete, Instruction.decode_lowered k hcomplete, hjs⟩
    rw [List.getElem?_map, hk, Option.map_some, htidy]

/-! ### A line that begins with its last jump -/

/-- Jumps at once; the string after the jump is never made. -/
def jumpFirst : List Instruction := [⟨.jump, [0]⟩, ⟨.scat, []⟩]

/-- The heap is cleared in front of all instructions, neither between two of them nor at the end. -/
theorem jumpFirst_cleared_in_front : (∀ i ∈ jumpFirst, i.Complete) ∧
    (cleanupLines [jumpFirst.flatMap Instruction.words]).1 =
      [(⟨.hclr, []⟩ :: jumpFirst).flatMap Instruction.words] ∧
    (lowerLine 0 ((⟨.hclr, []⟩ :: jumpFirst).flatMap Instruction.words) >>= decodeLine 0) =
      .ok (⟨.hclr, []⟩ :: jumpFirst) ∧
    ¬ ∃ before after, before ≠ [] ∧ jumpFirst = before ++ after ∧
      ⟨.hclr, []⟩ :: jumpFirst = before ++ ⟨.hclr, []⟩ :: after := by
  have hcomplete : ∀ i ∈ (⟨.hclr, []⟩ :: jumpFirst : List Instruction), i.Complete := by
    simp [jumpFirst, Instruction.Complete, operandsTaken, Opcode.operandCount]
  refine ⟨fun i hi => hcomplete i (List.mem_cons_of_mem _ hi), by decide,
    Instruction.decode_lowered 0 hcomplete, ?_⟩
  rintro ⟨before, after, hne, hparts, hcleared⟩
  cases before with
  | nil => exact hne rfl
  | cons first before =>
    have hjump := (List.cons.inj hparts).1
    have hclear := (List.cons.inj hcleared).1
    rw [← hjump] at hclear
    cases hclear

end TurtleCode
