import Mathlib.Data.List.Induction
import TurtleCode.Link.Calls
import TurtleCode.Link.Lower

/-!
# What resolving calls comes to

Resolving goes through the placeholders line by line and from left to right.  It either replaces
every one of them, or stops at the first that cannot be resolved and leaves all that follows as it
was.

* `Word.resolved`: a word once its call is resolved.
* `Placements.Resolves`, `Line.Resolvable`: a placeholder, or all those of a line, can be resolved.
* `resolveLine_through`, `resolveLine_stop`: going through placeholders that can be resolved, and
  stopping at one that cannot.  `resolveFrom_through`, `resolveFrom_stop`: the same for lines.
* `lowerFrom_ok`: lines that have no placeholder left can be lowered.
* `resolveCalls_outcome`: when all calls are resolved, and which fault there is otherwise.
-/

namespace TurtleCode

/-! ## Placeholders -/

def Word.call? : Word → Option UInt64
  | .call index => some index
  | _ => none

def Word.resolved (placed : Placements) : Word → Word
  | .call index =>
    (placed.start? index).elim (.call index) fun start => .int (Address.operand start)
  | word => word

/-- A placeholder that comes after the words `before` of its line can be resolved: it directly
follows the opcode of a call, and the subroutine has a place. -/
def Placements.Resolves (placed : Placements) (before : Line) (index : UInt64) : Prop :=
  before.getLast? = some (.op .subr) ∧ ∃ start, placed.start? index = some start

def Line.Resolvable (placed : Placements) (line : Line) : Prop :=
  ∀ before index after, line = before ++ .call index :: after → placed.Resolves before index

/-- What is wrong with a placeholder that cannot be resolved. -/
def callFault (address : Nat) (before : Line) (index : UInt64) : Fault :=
  if before.getLast? = some (.op .subr) then .unresolvedCall index
  else .malformedLine address (.strayCall index)

variable {placed : Placements}

theorem Word.resolved_eq_op {word : Word} {op : Opcode} :
    word.resolved placed = .op op ↔ word = .op op := by
  cases word with
  | op code => exact Iff.rfl
  | int n => exact Iff.rfl
  | call index =>
    rw [resolved]
    cases placed.start? index <;> simp

theorem Line.getLast?_resolved (placed : Placements) {line : Line} {op : Opcode} :
    (line.map (Word.resolved placed)).getLast? = some (.op op) ↔ line.getLast? = some (.op op) := by
  rw [List.getLast?_map, Option.map_eq_some_iff]
  constructor
  · rintro ⟨word, hword, h⟩
    rwa [Word.resolved_eq_op.mp h] at hword
  · intro h
    exact ⟨.op op, h, rfl⟩

namespace Line.Resolvable

theorem nil : Resolvable placed [] := by
  intro before index after h
  simp at h

theorem of_call_not_mem {line : Line} (h : ∀ index, .call index ∉ line) :
    Resolvable placed line := by
  rintro before index after rfl
  exact absurd (by simp) (h index)

theorem of_append {line more : Line} (h : Resolvable placed (line ++ more)) :
    Resolvable placed line := by
  rintro before index after rfl
  exact h before index (after ++ more) (by simp)

theorem concat {line : Line} {word : Word} (h : Resolvable placed line)
    (hword : ∀ index, word = .call index → placed.Resolves line index) :
    Resolvable placed (line ++ [word]) := by
  intro before index after he
  rcases List.eq_nil_or_concat after with rfl | ⟨more, last, rfl⟩
  · obtain ⟨rfl, hlast⟩ := List.append_inj' he rfl
    exact hword index (List.cons.inj hlast).1
  · rw [List.concat_eq_append, ← List.cons_append, ← List.append_assoc] at he
    exact h before index more (List.append_inj' he rfl).1

theorem append {line more : Line} (h : Resolvable placed line) (hmore : Resolvable placed more) :
    Resolvable placed (line ++ more) := by
  intro before index after he
  rcases List.append_eq_append_iff.mp he with ⟨part, rfl, hpart⟩ | ⟨part, rfl, hpart⟩
  · obtain ⟨hlast, hstart⟩ := hmore part index after hpart
    refine ⟨?_, hstart⟩
    rw [List.getLast?_append, hlast]
    rfl
  · cases part with
    | nil =>
      obtain ⟨hlast, _⟩ := hmore [] index after hpart.symm
      cases hlast
    | cons word part =>
      obtain ⟨rfl, _⟩ := List.cons.inj hpart
      exact h before index part rfl

theorem start?_of_mem {line : Line} (h : Resolvable placed line) {index : UInt64}
    (hm : .call index ∈ line) : ∃ start, placed.start? index = some start := by
  obtain ⟨before, after, rfl⟩ := List.append_of_mem hm
  exact (h before index after rfl).2

theorem call_not_mem {line : Line} (h : Resolvable placed line) (index : UInt64) :
    Word.call index ∉ line.map (Word.resolved placed) := by
  intro hm
  obtain ⟨word, hword, he⟩ := List.mem_map.mp hm
  cases word with
  | op code => cases he
  | int n => cases he
  | call i =>
    obtain ⟨start, hstart⟩ := h.start?_of_mem hword
    rw [Word.resolved, hstart] at he
    cases he

end Line.Resolvable

theorem Line.resolvable_or_first (placed : Placements) (line : Line) :
    line.Resolvable placed ∨ ∃ before index after, line = before ++ .call index :: after ∧
      before.Resolvable placed ∧ ¬ placed.Resolves before index := by
  induction line using List.reverseRecOn with
  | nil => exact .inl .nil
  | append_singleton line word ih =>
    rcases ih with hline | ⟨before, index, after, rfl, hbefore, hnot⟩
    · by_cases hword : ∀ index, word = .call index → placed.Resolves line index
      · exact .inl (hline.concat hword)
      · push Not at hword
        obtain ⟨index, rfl, hnot⟩ := hword
        exact .inr ⟨line, index, [], rfl, hline, hnot⟩
    · exact .inr ⟨before, index, after ++ [word], by simp, hbefore, hnot⟩

/-! ## Lines -/

/-- Placeholders that can be resolved are resolved, whatever follows them. -/
theorem resolveLine_through (address : Nat) {line : Line} (h : line.Resolvable placed) :
    ∃ calls : List ResolvedCall, calls.map (·.index) = line.filterMap Word.call? ∧
      ∀ rest, resolveLine placed address none (line ++ rest) =
        let after := resolveLine placed address (line.map (Word.resolved placed)).getLast? rest
        ⟨line.map (Word.resolved placed) ++ after.code, calls ++ after.calls, after.fault⟩ := by
  induction line using List.reverseRecOn with
  | nil => exact ⟨[], rfl, fun rest => rfl⟩
  | append_singleton line word ih =>
    obtain ⟨calls, hcalls, hline⟩ := ih h.of_append
    cases word with
    | op code =>
      refine ⟨calls, by simp [hcalls, Word.call?], fun rest => ?_⟩
      rw [List.append_assoc, List.singleton_append, hline]
      simp [resolveLine, Word.resolved]
    | int n =>
      refine ⟨calls, by simp [hcalls, Word.call?], fun rest => ?_⟩
      rw [List.append_assoc, List.singleton_append, hline]
      simp [resolveLine, Word.resolved]
    | call index =>
      obtain ⟨hlast, start, hstart⟩ := h line index [] rfl
      refine ⟨calls ++ [⟨address, index, start⟩], by simp [hcalls, Word.call?], fun rest => ?_⟩
      have hprevious := (Line.getLast?_resolved placed).mpr hlast
      rw [List.append_assoc, List.singleton_append, hline]
      simp [resolveLine, Word.resolved, hprevious, hstart]

/-- The first placeholder that cannot be resolved ends the work, and nothing after it changes. -/
theorem resolveLine_stop (address : Nat) {before : Line} (h : before.Resolvable placed)
    {index : UInt64} (hnot : ¬ placed.Resolves before index) :
    ∃ calls, ∀ after, resolveLine placed address none (before ++ .call index :: after) =
      ⟨before.map (Word.resolved placed) ++ .call index :: after, calls,
        some (callFault address before index)⟩ := by
  obtain ⟨calls, _, hbefore⟩ := resolveLine_through address h
  refine ⟨calls, fun after => ?_⟩
  rw [hbefore]
  by_cases hlast : before.getLast? = some (.op .subr)
  · have hprevious := (Line.getLast?_resolved placed).mpr hlast
    have hnone : placed.start? index = none := by
      cases hstart : placed.start? index with
      | none => rfl
      | some start => exact absurd ⟨hlast, start, hstart⟩ hnot
    simp only [resolveLine, if_pos hprevious, hnone, callFault, if_pos hlast, List.append_nil]
  · have hprevious := mt (Line.getLast?_resolved placed).mp hlast
    simp only [resolveLine, if_neg hprevious, callFault, if_neg hlast, List.append_nil]

theorem resolveFrom_through (address : Nat) {lines : List Line}
    (h : ∀ line ∈ lines, line.Resolvable placed) :
    ∃ calls : List ResolvedCall, calls.map (·.index) = lines.flatMap (·.filterMap Word.call?) ∧
      ∀ rest, resolveFrom placed address (lines ++ rest) =
        let after := resolveFrom placed (address + lines.length) rest
        ⟨lines.map (·.map (Word.resolved placed)) ++ after.code, calls ++ after.calls,
          after.fault⟩ := by
  induction lines generalizing address with
  | nil => exact ⟨[], rfl, fun rest => rfl⟩
  | cons line lines ih =>
    obtain ⟨here, hhere, hline⟩ := resolveLine_through address (h line List.mem_cons_self)
    obtain ⟨calls, hcalls, hlines⟩ := ih (address + 1)
      fun l hl => h l (List.mem_cons_of_mem line hl)
    refine ⟨here ++ calls, by simp [hhere, hcalls], fun rest => ?_⟩
    have hall := hline []
    rw [List.append_nil] at hall
    rw [List.cons_append, resolveFrom, hall, hlines]
    simp [resolveLine, Nat.add_assoc, Nat.add_comm 1]

/-- The line with the first placeholder that cannot be resolved is the last one to change. -/
theorem resolveFrom_stop (address : Nat) {earlier : List Line}
    (hearlier : ∀ line ∈ earlier, line.Resolvable placed) {before : Line}
    (hbefore : before.Resolvable placed) {index : UInt64} (hnot : ¬ placed.Resolves before index)
    (after : Line) (later : List Line) :
    ∃ calls, resolveFrom placed address (earlier ++ (before ++ .call index :: after) :: later) =
      ⟨earlier.map (·.map (Word.resolved placed)) ++
          (before.map (Word.resolved placed) ++ .call index :: after) :: later, calls,
        some (callFault (address + earlier.length) before index)⟩ := by
  obtain ⟨calls, _, hlines⟩ := resolveFrom_through address hearlier
  obtain ⟨here, hline⟩ := resolveLine_stop (address + earlier.length) hbefore hnot
  refine ⟨calls ++ here, ?_⟩
  rw [hlines, resolveFrom, hline]

theorem Line.resolvable_or_first_line (placed : Placements) (lines : List Line) :
    (∀ line ∈ lines, Resolvable placed line) ∨
      ∃ (earlier : List Line) (before : Line) (index : UInt64) (after : Line) (later : List Line),
        lines = earlier ++ (before ++ .call index :: after) :: later ∧
        (∀ line ∈ earlier, line.Resolvable placed) ∧ before.Resolvable placed ∧
        ¬ placed.Resolves before index := by
  induction lines with
  | nil => exact .inl (by simp)
  | cons line lines ih =>
    rcases line.resolvable_or_first placed with hline | ⟨before, index, after, rfl, hbefore, hnot⟩
    · rcases ih with hlines | ⟨earlier, before, index, after, later, rfl, hearlier, hrest⟩
      · exact .inl (List.forall_mem_cons.mpr ⟨hline, hlines⟩)
      · exact .inr ⟨line :: earlier, before, index, after, later, rfl,
          List.forall_mem_cons.mpr ⟨hline, hearlier⟩, hrest⟩
    · exact .inr ⟨[], before, index, after, lines, rfl, by simp, hbefore, hnot⟩

/-! ## Lowering -/

def Word.value : Word → Int64
  | .op code => code.value
  | .int n => n
  | .call _ => 0

theorem lowerLine_ok (address : Nat) : ∀ (line : Line), (∀ index, .call index ∉ line) →
    lowerLine address line = .ok (line.map Word.value)
  | [], _ => rfl
  | word :: rest, h => by
    have ih := lowerLine_ok address rest fun index hm => h index (List.mem_cons_of_mem _ hm)
    cases word with
    | op code => rw [lowerLine, ih]; rfl
    | int n => rw [lowerLine, ih]; rfl
    | call index => exact absurd List.mem_cons_self (h index)

theorem lowerFrom_ok (address : Nat) : ∀ (lines : List Line),
    (∀ line ∈ lines, ∀ index, .call index ∉ line) →
      lowerFrom address lines = .ok (lines.map (·.map Word.value))
  | [], _ => rfl
  | line :: rest, h => by
    have ih := lowerFrom_ok (address + 1) rest fun l hl => h l (List.mem_cons_of_mem _ hl)
    rw [lowerFrom, lowerLine_ok address line (h line List.mem_cons_self), ih]
    rfl

/-! ## All lines -/

theorem resolveCalls_of_resolvable {lines : List Line}
    (h : ∀ line ∈ lines, line.Resolvable placed) :
    (resolveCalls placed lines).code = lines.map (·.map (Word.resolved placed)) ∧
      (resolveCalls placed lines).fault = none ∧
      (resolveCalls placed lines).calls.map (·.index) = lines.flatMap (·.filterMap Word.call?) := by
  obtain ⟨calls, hcalls, hlines⟩ := resolveFrom_through 0 h
  have hall := hlines []
  rw [List.append_nil] at hall
  rw [resolveCalls, hall, ← hcalls]
  simp [resolveFrom]

/-- **What resolving calls comes to.**  All calls are resolved if and only if every placeholder
directly follows the opcode of a call and names a subroutine that has a place.  Then the number of
calls is that of the placeholders, each of them is replaced by the start of its subroutine, and the
lines can be lowered.  Otherwise the fault is that of the first placeholder, by lines and then by
words, that cannot be resolved; those before it are resolved, and nothing else has changed. -/
theorem resolveCalls_outcome (placed : Placements) (lines : List Line) :
    ((∃ n, (resolveCalls placed lines).count = .ok n) ↔ ∀ line ∈ lines, line.Resolvable placed) ∧
    (∀ n, (resolveCalls placed lines).count = .ok n →
      n = (lines.flatMap (·.filterMap Word.call?)).length ∧
      (resolveCalls placed lines).code = lines.map (·.map (Word.resolved placed)) ∧
      (∀ line ∈ (resolveCalls placed lines).code, ∀ index, .call index ∉ line) ∧
      ∃ q, lower (resolveCalls placed lines).code = .ok q) ∧
    ∀ fault, (resolveCalls placed lines).count = .error fault →
      ∃ (earlier : List Line) (before : Line) (index : UInt64) (after : Line) (later : List Line),
        lines = earlier ++ (before ++ .call index :: after) :: later ∧
        (∀ line ∈ earlier, line.Resolvable placed) ∧ before.Resolvable placed ∧
        ¬ placed.Resolves before index ∧ fault = callFault earlier.length before index ∧
        (resolveCalls placed lines).code = earlier.map (·.map (Word.resolved placed)) ++
          (before.map (Word.resolved placed) ++ .call index :: after) :: later := by
  rcases Line.resolvable_or_first_line placed lines with
    hall | ⟨earlier, before, index, after, later, rfl, hearlier, hbefore, hnot⟩
  · obtain ⟨hcode, hfault, hcalls⟩ := resolveCalls_of_resolvable hall
    have hcount : (resolveCalls placed lines).count =
        .ok (lines.flatMap (·.filterMap Word.call?)).length := by
      rw [Resolution.count, hfault, ← hcalls, List.length_map]
    have hfree : ∀ line ∈ lines.map (·.map (Word.resolved placed)), ∀ index,
        Word.call index ∉ line := by
      intro line hl
      obtain ⟨original, horiginal, rfl⟩ := List.mem_map.mp hl
      exact (hall original horiginal).call_not_mem
    rw [hcount, hcode]
    refine ⟨iff_of_true ⟨_, rfl⟩ hall, ?_, ?_⟩
    · rintro n hn
      obtain rfl := Except.ok.inj hn
      exact ⟨rfl, rfl, hfree, _, congrArg (Except.map Pcode.mk) (lowerFrom_ok 0 _ hfree)⟩
    · rintro fault hf
      cases hf
  · obtain ⟨calls, hstop⟩ := resolveFrom_stop 0 hearlier hbefore hnot after later
    rw [Nat.zero_add] at hstop
    rw [resolveCalls, hstop]
    refine ⟨iff_of_false ?_ ?_, ?_, ?_⟩
    · rintro ⟨n, hn⟩
      cases hn
    · intro hall
      exact hnot (hall _ (by simp) before index after rfl)
    · rintro n hn
      cases hn
    · rintro fault hf
      cases hf
      exact ⟨earlier, before, index, after, later, rfl, hearlier, hbefore, hnot, rfl, rfl⟩

end TurtleCode
