import TurtleCode.Proofs.Cleaning
import TurtleCode.Proofs.Resolution

/-!
# The passes over whole programs

Calls can be resolved before the heap is cleaned, or after that.  Cleaning looks at opcodes only,
and resolving changes none of them.  What cleaning puts in never stands right before a placeholder,
so the word that resolving looks at is the same.

* `resolveLine_opcodes`: resolving changes no opcode.
* `resolveLine_cut`: a clearing of the heap takes no part in resolving.
* `resolveLine_tidyLine`: both passes on one line.
* `passes_commute`: both passes on all lines, also when resolving stops early.
-/

namespace TurtleCode

open Line

/-! ## Opcodes -/

theorem Word.opcode?_eq_some {word : Word} {op : Opcode} :
    word.opcode? = some op ↔ word = .op op := by
  cases word <;> simp [opcode?]

theorem resolveLine_opcodes (placed : Placements) (address : Nat) (previous : Option Word)
    (line : Line) : (resolveLine placed address previous line).code.map Word.opcode? =
      line.map Word.opcode? := by
  induction line generalizing previous with
  | nil => rfl
  | cons word rest ih =>
    cases word with
    | op code => simp [resolveLine, ih]
    | int n => simp [resolveLine, ih]
    | call index =>
      rw [resolveLine]
      split
      · split
        · simp [ih, Word.opcode?]
        · rfl
      · rfl

theorem Word.opcode?_resolved (placed : Placements) (word : Word) :
    (word.resolved placed).opcode? = word.opcode? := by
  cases word with
  | op code => rfl
  | int n => rfl
  | call index =>
    rw [resolved]
    cases placed.start? index <;> rfl

namespace Line

theorem op_mem_iff {line : Line} {op : Opcode} :
    .op op ∈ line ↔ some op ∈ line.map Word.opcode? := by
  simp [Word.opcode?_eq_some]

theorem getLast?_eq_op {line : Line} {op : Opcode} :
    line.getLast? = some (.op op) ↔ (line.map Word.opcode?).getLast? = some (some op) := by
  simp [List.getLast?_map, Word.opcode?_eq_some]

variable {before after before' after' : Line}

theorem Cut.congr (h : Cut before after)
    (hbefore : before'.map Word.opcode? = before.map Word.opcode?)
    (hafter : after'.map Word.opcode? = after.map Word.opcode?) : Cut before' after' := by
  cases h with
  | @jump rest hrest =>
    obtain ⟨word, rest', rfl, hword, hrest'⟩ := List.map_eq_cons_iff.mp hafter
    obtain rfl := Word.opcode?_eq_some.mp hword
    refine .jump ?_
    rwa [op_mem_iff, hrest', ← op_mem_iff]
  | ending hnone =>
    obtain rfl := List.map_eq_nil_iff.mp hafter
    refine .ending ?_
    rwa [op_mem_iff, hbefore, ← op_mem_iff]

theorem untidy_congr (hbefore : before'.map Word.opcode? = before.map Word.opcode?)
    (hafter : after'.map Word.opcode? = after.map Word.opcode?) :
    Untidy before' after' ↔ Untidy before after := by
  have hmem (op : Opcode) : .op op ∈ before' ++ after' ↔ .op op ∈ before ++ after := by
    rw [op_mem_iff, op_mem_iff, List.map_append, List.map_append, hbefore, hafter]
  have hlast : before'.getLast? = some (.op .hclr) ↔ before.getLast? = some (.op .hclr) := by
    rw [getLast?_eq_op, getLast?_eq_op, hbefore]
  constructor
  · rintro ⟨⟨op, hop, hbuilds⟩, hsilent, hopen⟩
    exact ⟨⟨op, (hmem op).mp hop, hbuilds⟩, mt (hmem .subr).mpr hsilent, mt hlast.mpr hopen⟩
  · rintro ⟨⟨op, hop, hbuilds⟩, hsilent, hopen⟩
    exact ⟨⟨op, (hmem op).mpr hop, hbuilds⟩, mt (hmem .subr).mp hsilent, mt hlast.mp hopen⟩

end Line

/-! ## One line -/

/-- What comes after the cut does not begin with a placeholder, so the word before it does not
matter. -/
theorem Line.Cut.resolveLine_eq {before after : Line} (h : Cut before after) (placed : Placements)
    (address : Nat) (previous previous' : Option Word) :
    resolveLine placed address previous after = resolveLine placed address previous' after := by
  cases h with
  | jump _ => rfl
  | ending _ => rfl

/-- A clearing that is put in at the cut takes no part in resolving. -/
theorem resolveLine_cut (placed : Placements) (address : Nat) {before after : Line}
    (h : Cut before after) : ∃ before' after' calls fault,
      resolveLine placed address none (before ++ after) = ⟨before' ++ after', calls, fault⟩ ∧
      resolveLine placed address none (before ++ .op .hclr :: after) =
        ⟨before' ++ .op .hclr :: after', calls, fault⟩ ∧
      before'.map Word.opcode? = before.map Word.opcode? ∧
      after'.map Word.opcode? = after.map Word.opcode? := by
  have hresolved (line : Line) :
      (line.map (Word.resolved placed)).map Word.opcode? = line.map Word.opcode? := by
    simp [Word.opcode?_resolved]
  rcases before.resolvable_or_first placed with hbefore | ⟨first, index, rest, rfl, hfirst, hnot⟩
  · obtain ⟨calls, _, hline⟩ := resolveLine_through address hbefore
    refine ⟨_, _, _, _, hline after, ?_, hresolved before, resolveLine_opcodes _ _ _ _⟩
    have hsame := h.resolveLine_eq placed address (some (.op .hclr))
      (before.map (Word.resolved placed)).getLast?
    simp only [hline, resolveLine, hsame]
  · obtain ⟨calls, hline⟩ := resolveLine_stop address hfirst hnot
    refine ⟨first.map (Word.resolved placed) ++ .call index :: rest, after, calls,
      some (callFault address first index), ?_, ?_, ?_, rfl⟩
    · rw [List.append_assoc, List.cons_append, hline]
      simp
    · rw [List.append_assoc, List.cons_append, hline]
      simp
    · rw [List.map_append, List.map_append, hresolved]

/-- **On one line** the passes commute, and cleaning changes the line before or after resolving, or
in neither case. -/
theorem resolveLine_tidyLine (placed : Placements) (address : Nat) (line : Line) :
    resolveLine placed address none (tidyLine line) =
        ⟨tidyLine (resolveLine placed address none line).code,
          (resolveLine placed address none line).calls,
          (resolveLine placed address none line).fault⟩ ∧
      (tidyLine (resolveLine placed address none line).code =
        (resolveLine placed address none line).code ↔ tidyLine line = line) := by
  obtain ⟨before, after, rfl, hcut⟩ := exists_cut line
  obtain ⟨before', after', calls, fault, hline, hcleared, hbefore, hafter⟩ :=
    resolveLine_cut placed address hcut
  have hcut' := hcut.congr hbefore hafter
  rw [hline]
  by_cases h : Untidy before after
  · rw [tidyLine_of_untidy hcut h, tidyLine_of_untidy hcut' ((untidy_congr hbefore hafter).mpr h)]
    exact ⟨hcleared, by simp⟩
  · rw [tidyLine_of_not_untidy hcut h,
      tidyLine_of_not_untidy hcut' (mt (untidy_congr hbefore hafter).mp h)]
    exact ⟨hline, by simp⟩

/-! ## All lines -/

theorem resolveFrom_cleanupFrom (placed : Placements) (address : Nat) (lines : List Line) :
    resolveFrom placed address (cleanupFrom address lines).1 =
        ⟨(cleanupFrom address (resolveFrom placed address lines).code).1,
          (resolveFrom placed address lines).calls, (resolveFrom placed address lines).fault⟩ ∧
      (cleanupFrom address (resolveFrom placed address lines).code).2 =
        (cleanupFrom address lines).2 := by
  induction lines generalizing address with
  | nil => exact ⟨rfl, rfl⟩
  | cons line rest ih =>
    obtain ⟨hcode, hchanged⟩ := ih (address + 1)
    obtain ⟨hline, hsame⟩ := resolveLine_tidyLine placed address line
    rw [cleanupFrom_cons]
    dsimp only
    rw [resolveFrom, resolveFrom, hline]
    dsimp only
    -- after a fault on this line the rest is cleaned but not resolved, in either order
    cases hfault : (resolveLine placed address none line).fault with
    | some fault => simp [cleanupFrom_cons, hsame]
    | none => simp [cleanupFrom_cons, hsame, hcode, hchanged]

/-- **The two passes commute.**  Resolving calls and then cleaning the heap gives the same lines as
cleaning and then resolving, resolves the same calls, or stops with the same fault, and changes the
same lines by cleaning. -/
theorem passes_commute (placed : Placements) (lines : List Line) :
    (cleanupLines (resolveCalls placed lines).code).1 =
        (resolveCalls placed (cleanupLines lines).1).code ∧
      (resolveCalls placed lines).calls = (resolveCalls placed (cleanupLines lines).1).calls ∧
      (resolveCalls placed lines).count = (resolveCalls placed (cleanupLines lines).1).count ∧
      (cleanupLines (resolveCalls placed lines).code).2 = (cleanupLines lines).2 := by
  obtain ⟨hresolved, hchanged⟩ := resolveFrom_cleanupFrom placed 0 lines
  unfold resolveCalls cleanupLines
  rw [hresolved]
  exact ⟨rfl, rfl, rfl, hchanged⟩

end TurtleCode
