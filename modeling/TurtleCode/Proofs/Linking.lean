import TurtleCode.Generate
import TurtleCode.Proofs.Cleaning

/-!
# Linking, line by line

On lines that read as complete phrases whose calls can be resolved, linking works on each line by
itself: calls become instructions, a clearing of the heap may be put in, and the words become
integers.

* `Phrase.resolve`: the instruction that a phrase becomes.
* `Tidied`: a list of phrases and what cleaning the heap makes of it.
* `tidyLine_linkedText`, `decode_linkedLine`: what a linked line decodes to.
* `link_text`, `link_pages`: linking is this for every line, and then a check.
* `Pcode.checkFrom_ok`: what the check asks for.
-/

namespace TurtleCode

/-! ## Calls -/

namespace Phrase

def Resolvable (placed : Placements) : Phrase → Prop
  | .plain _ => True
  | .call index => ∃ start, placed.start? index = some start

/-- The instruction that a phrase becomes, calls going to where their subroutines start. -/
def resolve (placed : Placements) : Phrase → Instruction
  | .plain i => i
  | .call index => ⟨.subr, [Address.operand ((placed.start? index).getD 0)]⟩

@[simp] theorem resolve_op (placed : Placements) (q : Phrase) : (q.resolve placed).op = q.op := by
  cases q <;> rfl

theorem Complete.resolve {q : Phrase} (h : q.Complete) (placed : Placements) :
    (q.resolve placed).Complete := by
  cases q with
  | plain i => exact h
  | call index => exact Instruction.complete_of_length (by decide) rfl

def linkedText (placed : Placements) (phrases : List Phrase) : Line :=
  phrases.flatMap fun q => (q.resolve placed).words

variable {placed : Placements} {phrases : List Phrase} {op : Opcode}

theorem linkedText_eq (placed : Placements) (phrases : List Phrase) :
    linkedText placed phrases = (phrases.map (resolve placed)).flatMap Instruction.words :=
  (List.flatMap_map _ _ _).symm

theorem linkedText_append (placed : Placements) (a b : List Phrase) :
    linkedText placed (a ++ b) = linkedText placed a ++ linkedText placed b :=
  List.flatMap_append

theorem opcodes_linkedText (placed : Placements) (phrases : List Phrase) :
    Line.opcodes (linkedText placed phrases) = phrases.map Phrase.op := by
  induction phrases with
  | nil => rfl
  | cons r rest ih =>
    rw [linkedText, List.flatMap_cons, Line.opcodes_append, ← linkedText, ih, Instruction.words,
      Line.opcodes_instr, resolve_op]
    rfl

theorem op_mem_linkedText : .op op ∈ linkedText placed phrases ↔ ∃ r ∈ phrases, r.op = op := by
  rw [← Line.mem_opcodes, opcodes_linkedText, List.mem_map]

end Phrase

theorem Phrase.resolved_words {placed : Placements} {q : Phrase} (h : q.Resolvable placed) :
    q.words.map (Word.resolved placed) = (q.resolve placed).words := by
  cases q with
  | plain i => simp [words, resolve, Instruction.words, instr, Word.resolved]
  | call index =>
    obtain ⟨start, hstart⟩ := h
    simp [words, resolve, Instruction.words, instr, Word.resolved, hstart]

theorem Phrase.resolvable_words {placed : Placements} {q : Phrase} (h : q.Resolvable placed) :
    q.words.Resolvable placed := by
  cases q with
  | plain i => exact .of_call_not_mem i.call_not_mem_words
  | call index =>
    have hopcode : Line.Resolvable placed [.op .subr] := .of_call_not_mem (by simp)
    refine hopcode.concat fun i he => ?_
    cases he
    exact ⟨rfl, h⟩

theorem Phrase.resolvable_text {placed : Placements} {phrases : List Phrase}
    (h : ∀ q ∈ phrases, q.Resolvable placed) : (text phrases).Resolvable placed := by
  induction phrases with
  | nil => exact .nil
  | cons q rest ih =>
    obtain ⟨hq, hrest⟩ := List.forall_mem_cons.mp h
    exact (resolvable_words hq).append (ih hrest)

theorem Phrase.resolved_text {placed : Placements} {phrases : List Phrase}
    (h : ∀ q ∈ phrases, q.Resolvable placed) :
    (text phrases).map (Word.resolved placed) = linkedText placed phrases := by
  rw [text, linkedText, List.map_flatMap]
  exact List.flatMap_congr fun q hq => resolved_words (h q hq)

theorem resolveCalls_text {placed : Placements} {pages : List (List Phrase)}
    (h : ∀ phrases ∈ pages, ∀ q ∈ phrases, q.Resolvable placed) :
    (resolveCalls placed (pages.map Phrase.text)).code = pages.map (Phrase.linkedText placed) ∧
      (resolveCalls placed (pages.map Phrase.text)).fault = none := by
  obtain ⟨hcode, hfault, _⟩ := resolveCalls_of_resolvable
    (List.forall_mem_map.mpr fun phrases hp => Phrase.resolvable_text (h phrases hp))
  refine ⟨?_, hfault⟩
  rw [hcode, List.map_map]
  exact List.map_congr_left fun phrases hp => Phrase.resolved_text (h phrases hp)

/-! ## Cleaning the heap -/

def Phrase.clear : Phrase := .plain ⟨.hclr, []⟩

/-- What cleaning the heap makes of phrases: nothing changes, or the heap is cleared at the end or
right before a jump. -/
def Tidied (phrases tidy : List Phrase) : Prop :=
  tidy = phrases ∨ ∃ before after, phrases = before ++ after ∧
    tidy = before ++ Phrase.clear :: after ∧ ∀ q ∈ after.head?, q.op = .jump

theorem Phrase.exists_cut (placed : Placements) (phrases : List Phrase) :
    ∃ before after, phrases = before ++ after ∧ (∀ q ∈ after.head?, q.op = .jump) ∧
      Line.Cut (linkedText placed before) (linkedText placed after) := by
  obtain ⟨first, last, hparts, hjump, hcut⟩ := Instruction.exists_cut (phrases.map (resolve placed))
  obtain ⟨before, after, rfl, rfl, rfl⟩ := List.map_eq_append_iff.mp hparts
  refine ⟨before, after, rfl, ?_, ?_⟩
  · intro q hq
    rw [← resolve_op placed q]
    refine hjump _ ?_
    rw [List.head?_map, Option.mem_def.mp hq]
    rfl
  · rwa [linkedText_eq, linkedText_eq]

theorem tidyLine_linkedText (placed : Placements) (phrases : List Phrase) :
    ∃ tidy, Tidied phrases tidy ∧
      tidyLine (Phrase.linkedText placed phrases) = Phrase.linkedText placed tidy := by
  obtain ⟨before, after, rfl, hjump, hcut⟩ := Phrase.exists_cut placed phrases
  rw [Phrase.linkedText_append]
  by_cases h : Line.Untidy (Phrase.linkedText placed before) (Phrase.linkedText placed after)
  · refine ⟨before ++ Phrase.clear :: after, .inr ⟨before, after, rfl, rfl, hjump⟩, ?_⟩
    rw [tidyLine_of_untidy hcut h, Phrase.linkedText_append]
    rfl
  · refine ⟨before ++ after, .inl rfl, ?_⟩
    rw [tidyLine_of_not_untidy hcut h, Phrase.linkedText_append]

theorem tidyLine_of_call (placed : Placements) {phrases : List Phrase}
    (h : ∃ q ∈ phrases, q.op = .subr) :
    tidyLine (Phrase.linkedText placed phrases) = Phrase.linkedText placed phrases := by
  have hneeds : ¬ needsCleanup (Phrase.linkedText placed phrases) = true := fun hn =>
    (needsCleanup_iff.mp hn).2 (Phrase.op_mem_linkedText.mpr h)
  rw [tidyLine, if_neg hneeds]
  rfl

namespace Tidied

variable {phrases tidy : List Phrase}

theorem complete (h : Tidied phrases tidy) (hc : ∀ q ∈ phrases, q.Complete) :
    ∀ q ∈ tidy, q.Complete := by
  rcases h with rfl | ⟨before, after, rfl, rfl, _⟩
  · exact hc
  · intro q hq
    rcases List.mem_append.mp hq with hq | hq
    · exact hc q (List.mem_append_left _ hq)
    · rcases List.mem_cons.mp hq with rfl | hq
      · exact Instruction.complete_of_length (by decide) rfl
      · exact hc q (List.mem_append_right _ hq)

theorem mem (h : Tidied phrases tidy) {q : Phrase} (hq : q ∈ tidy) :
    q ∈ phrases ∨ q = Phrase.clear := by
  rcases h with rfl | ⟨before, after, rfl, rfl, _⟩
  · exact .inl hq
  · rcases List.mem_append.mp hq with hq | hq
    · exact .inl (List.mem_append_left _ hq)
    · rcases List.mem_cons.mp hq with hq | hq
      · exact .inr hq
      · exact .inl (List.mem_append_right _ hq)

theorem mem_of_op_ne (h : Tidied phrases tidy) {q : Phrase} (hq : q ∈ tidy) (hop : q.op ≠ .hclr) :
    q ∈ phrases := by
  rcases h.mem hq with hq | rfl
  · exact hq
  · exact absurd rfl hop

theorem subset (h : Tidied phrases tidy) : phrases ⊆ tidy := by
  rcases h with rfl | ⟨before, after, rfl, rfl, _⟩
  · exact List.Subset.refl _
  · exact List.append_subset.mpr ⟨List.subset_append_left _ _,
      List.subset_append_of_subset_right _ (List.subset_cons_self _ _)⟩

/-- Without a jump, the heap is cleared at the end. -/
theorem eq_append (h : Tidied phrases tidy) (hj : ∀ q ∈ phrases, q.op ≠ .jump) :
    ∃ tail, tidy = phrases ++ tail ∧ ∀ q ∈ tail, q = Phrase.clear := by
  rcases h with rfl | ⟨before, after, rfl, rfl, hjump⟩
  · exact ⟨[], (List.append_nil _).symm, by simp⟩
  · cases after with
    | nil => exact ⟨[Phrase.clear], by simp, by simp⟩
    | cons q after => exact absurd (hjump q rfl) (hj q (by simp))

theorem ne_nil (h : Tidied phrases tidy) (hne : phrases ≠ []) : tidy ≠ [] := by
  rcases h with rfl | ⟨before, after, _, rfl, _⟩
  · exact hne
  · simp

end Tidied

theorem Phrase.call_not_mem_linkedText (placed : Placements) (phrases : List Phrase)
    (index : UInt64) : Word.call index ∉ linkedText placed phrases := by
  rw [linkedText_eq]
  exact Instruction.call_not_mem_line _ index

theorem Phrase.values_linkedText (placed : Placements) (phrases : List Phrase) :
    (linkedText placed phrases).map Word.value =
      (phrases.map (resolve placed)).flatMap Instruction.values := by
  rw [linkedText_eq, Instruction.values_line]

/-! ## Linking -/

def linkedLine (placed : Placements) (phrases : List Phrase) : List Int64 :=
  (tidyLine (Phrase.linkedText placed phrases)).map Word.value

theorem decode_tidied (placed : Placements) {phrases tidy : List Phrase}
    (hc : ∀ q ∈ phrases, q.Complete) (ht : Tidied phrases tidy)
    (hline : tidyLine (Phrase.linkedText placed phrases) = Phrase.linkedText placed tidy) :
    decode (linkedLine placed phrases) = .ok (tidy.map (Phrase.resolve placed)) := by
  rw [linkedLine, hline, Phrase.values_linkedText]
  refine decode_values _ fun i hi => ?_
  obtain ⟨q, hq, rfl⟩ := List.mem_map.mp hi
  exact (ht.complete hc q hq).resolve placed

/-- A linked line decodes to its phrases, their calls resolved and the heap cleared once at most. -/
theorem decode_linkedLine (placed : Placements) {phrases : List Phrase}
    (hc : ∀ q ∈ phrases, q.Complete) :
    ∃ tidy, Tidied phrases tidy ∧
      decode (linkedLine placed phrases) = .ok (tidy.map (Phrase.resolve placed)) := by
  obtain ⟨tidy, ht, hline⟩ := tidyLine_linkedText placed phrases
  exact ⟨tidy, ht, decode_tidied placed hc ht hline⟩

/-- Linking lines of phrases whose calls can be resolved is linking every line, and the check. -/
theorem link_text {a : Assembly} {pages : List (List Phrase)} (ha : a.lines = pages.map Phrase.text)
    (hr : ∀ phrases ∈ pages, ∀ q ∈ phrases, q.Resolvable a.placements) :
    link a = (do
      Pcode.check ⟨pages.map (linkedLine a.placements)⟩
      return ⟨pages.map (linkedLine a.placements)⟩) := by
  obtain ⟨hcode, hfault⟩ := resolveCalls_text hr
  have hnone : ∀ line ∈ (pages.map (Phrase.linkedText a.placements)).map tidyLine, ∀ index,
      Word.call index ∉ line := by
    intro line hl index
    rw [List.map_map] at hl
    obtain ⟨phrases, _, rfl⟩ := List.mem_map.mp hl
    obtain ⟨tidy, _, hline⟩ := tidyLine_linkedText a.placements phrases
    rw [Function.comp_apply, hline]
    exact Phrase.call_not_mem_linkedText a.placements tidy index
  have hlower := lowerFrom_ok 0 _ hnone
  rw [List.map_map, List.map_map] at hlower
  unfold link Resolution.count lower cleanupLines
  dsimp only
  rw [ha, hfault, hcode, cleanupFrom_fst, List.map_map, hlower]
  rfl

theorem link_pages {a : Assembly} {B : Nat → List Phrase → Prop}
    (hB : ∀ (k : Nat) line, a.lines[k]? = some line → ∃ phrases, line = Phrase.text phrases ∧
      (∀ r ∈ phrases, r.Complete ∧ r.Resolvable a.placements) ∧ B k phrases)
    {q : Pcode} (hq : link a = .ok q) :
    ∃ pages : List (List Phrase), a.lines = pages.map Phrase.text ∧
      q.lines = pages.map (linkedLine a.placements) ∧ q.check = .ok () ∧
      ∀ (k : Nat) phrases, pages[k]? = some phrases →
        (∀ r ∈ phrases, r.Complete ∧ r.Resolvable a.placements) ∧ B k phrases := by
  obtain ⟨pages, hlines, hpages⟩ := Line.exists_pages hB
  have resolvable : ∀ phrases ∈ pages, ∀ r ∈ phrases, r.Resolvable a.placements := by
    intro phrases hm r hr
    obtain ⟨k, hk⟩ := List.mem_iff_getElem?.mp hm
    exact ((hpages k phrases hk).1 r hr).2
  rw [link_text hlines resolvable] at hq
  simp only [Result.bind_eq_ok, Result.pure_eq_ok] at hq
  obtain ⟨_, hcheck, rfl⟩ := hq
  exact ⟨pages, hlines, rfl, hcheck, hpages⟩

/-! ## The check -/

theorem Pcode.checkTargets_ok {size address : Nat} {is : List Instruction}
    (h : ∀ i ∈ is, ∀ target, target? i = some target → inRange size target = true) :
    checkTargets size address is = .ok () := by
  induction is with
  | nil => rfl
  | cons i rest ih =>
    rw [checkTargets]
    have hrest := ih fun j hj => h j (List.mem_cons_of_mem i hj)
    split
    · next target ht => rw [h i List.mem_cons_self target ht, if_pos rfl, hrest]
    · exact hrest

/-- The check passes lines that are not empty, that decode, and whose targets are lines. -/
theorem Pcode.checkFrom_ok {size : Nat} : ∀ {lines : List (List Int64)} {address : Nat},
    (∀ line ∈ lines, line ≠ [] ∧ ∃ is, decode line = .ok is ∧
      ∀ i ∈ is, ∀ target, target? i = some target → inRange size target = true) →
    checkFrom size address lines = .ok ()
  | [], address, _ => rfl
  | line :: rest, address, h => by
    obtain ⟨hne, is, hd, ht⟩ := h line List.mem_cons_self
    have ih : checkFrom size (address + 1) rest = .ok () :=
      checkFrom_ok fun l hl => h l (List.mem_cons_of_mem line hl)
    cases line with
    | nil => exact absurd rfl hne
    | cons first more =>
      have step : checkFrom size address ((first :: more) :: rest) =
          (decodeLine address (first :: more) >>= fun is =>
            checkTargets size address is >>= fun _ => checkFrom size (address + 1) rest) := rfl
      rw [step, decodeLine, hd, ← ih]
      change (checkTargets size address is >>= fun _ => _) = _
      rw [checkTargets_ok ht]
      rfl

theorem Pcode.ne_nil_of_checkFrom {size : Nat} : ∀ {lines : List (List Int64)} {address : Nat},
    checkFrom size address lines = .ok () → ∀ line ∈ lines, line ≠ []
  | [], _, _ => by simp
  | [] :: rest, address, h => by cases h
  | (first :: more) :: rest, address, h => by
    have step : checkFrom size address ((first :: more) :: rest) =
        (decodeLine address (first :: more) >>= fun is =>
          checkTargets size address is >>= fun _ => checkFrom size (address + 1) rest) := rfl
    simp only [step, Result.bind_eq_ok] at h
    obtain ⟨_, _, _, _, h⟩ := h
    intro line hl
    rcases List.mem_cons.mp hl with rfl | hl
    · exact List.cons_ne_nil _ _
    · exact ne_nil_of_checkFrom h line hl

theorem decode_ne_nil {line : List Int64} {is : List Instruction} (h : decode line = .ok is)
    (hne : line ≠ []) : is ≠ [] := by
  rintro rfl
  cases line with
  | nil => exact hne rfl
  | cons value rest =>
    rw [decode] at h
    split at h
    · cases h
    · cases hd : decode _ with
      | error flaw =>
        rw [hd] at h
        cases h
      | ok more =>
        rw [hd] at h
        cases h

theorem link_of_generate {p : Program} {options : Options} {a : Assembly} {q : Pcode}
    (ha : (Setting.of p options).assemble = .ok a) (hq : generate p options = .ok q) :
    link a = .ok q := by
  obtain ⟨a', ha', hlink⟩ := Result.bind_eq_ok.mp hq
  obtain rfl := Except.ok.inj (ha.symm.trans ha')
  exact hlink

end TurtleCode
