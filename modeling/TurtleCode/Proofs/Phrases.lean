import TurtleCode.Pcode
import TurtleCode.Proofs.CodeLaw

/-!
# Lines as instructions

A line that is not linked yet is a list of words.  Here it is read as instructions, each with all
its operands.  A call is one that still waits for the address of its subroutine.

* `Instruction.Complete`: an instruction has the operands that its opcode asks for.
  `decode_values`: integers that come from complete instructions decode to these instructions.
* `Phrase`: an instruction before linking, `Phrase.text` the words of several.
* `Line.Reads A`: a line is made of complete phrases with the property `A`.  All code is
  (`Line.Reads.codeLaw`), if the native code and the string constants in it are.
-/

namespace TurtleCode

/-! ## Complete instructions -/

theorem Opcode.number_lt (op : Opcode) : op.number < all.length :=
  (List.getElem?_eq_some_iff.mp (all_getElem?_number op)).1

theorem Opcode.ofValue?_value (op : Opcode) : ofValue? op.value = some op := by
  have hlt : op.number < 9223372036854775808 := Nat.lt_trans op.number_lt (by decide)
  have hint : op.value.toInt = Int.ofNat op.number := Int64.toInt_ofNat_of_lt hlt
  rw [ofValue?, hint]
  exact all_getElem?_number op

namespace Instruction

def words (i : Instruction) : Line := instr i.op i.operands

/-- An instruction has the operands that its opcode asks for; a string constant also has as many
characters as it says. -/
def Complete (i : Instruction) : Prop := operandsTaken i.op i.operands = .ok i.operands.length

theorem complete_of_length {op : Opcode} {operands : List Int64} (hop : op ≠ .lstr)
    (h : operands.length = op.operandCount) : Complete ⟨op, operands⟩ := by
  unfold Complete operandsTaken
  rw [if_neg hop, h]

theorem complete_singleton {op : Opcode} {operands : List Int64} (hop : op ≠ .lstr)
    (h : operands.length = op.operandCount) : ∀ i ∈ [(⟨op, operands⟩ : Instruction)], i.Complete :=
  List.forall_mem_singleton.mpr (complete_of_length hop h)

theorem complete_string {characters : List Int64} (h : characters.length < UInt64.size / 2) :
    Complete ⟨.lstr, Int64.ofNat characters.length :: characters⟩ := by
  have hint : (Int64.ofNat characters.length).toInt = Int.ofNat characters.length :=
    Int64.toInt_ofNat_of_lt h
  unfold Complete operandsTaken
  rw [if_pos rfl, List.headD_cons, hint]
  simp only [List.length_cons, Opcode.operandCount, Nat.add_comm]

theorem Complete.taken_append {i : Instruction} (h : i.Complete) (rest : List Int64) :
    operandsTaken i.op (i.operands ++ rest) = .ok i.operands.length := by
  obtain ⟨op, operands⟩ := i
  by_cases hop : op = .lstr
  · subst hop
    cases operands with
    | nil => exact absurd (Except.ok.inj h) (by decide)
    | cons first more => exact h
  · unfold Complete operandsTaken at h
    rw [if_neg hop] at h
    unfold operandsTaken
    rw [if_neg hop]
    exact h

theorem Complete.decodeOne {i : Instruction} (h : i.Complete) (rest : List Int64) :
    decodeOne i.op.value (i.operands ++ rest) = .ok (i, rest) := by
  unfold TurtleCode.decodeOne
  rw [Opcode.ofValue?_value]
  dsimp only
  rw [h.taken_append rest]
  dsimp only
  rw [List.take_left, List.drop_left, if_neg (Nat.lt_irrefl _)]

end Instruction

/-- **Reading back**: the integers of complete instructions decode to the instructions. -/
theorem decode_values : ∀ (is : List Instruction), (∀ i ∈ is, i.Complete) →
    decode (is.flatMap Instruction.values) = .ok is
  | [], _ => by rw [List.flatMap_nil, decode]
  | i :: rest, h => by
    have hi : i.Complete := h i List.mem_cons_self
    have ih := decode_values rest fun j hj => h j (List.mem_cons_of_mem i hj)
    have hone := hi.decodeOne (rest.flatMap Instruction.values)
    rw [List.flatMap_cons, Instruction.values, List.cons_append, decode]
    split
    · next flaw hf =>
      rw [hone] at hf
      cases hf
    · next j after hj =>
      rw [hone] at hj
      cases hj
      rw [ih]
      rfl

/-! ## Phrases -/

theorem Line.mem_opcodes {line : Line} {op : Opcode} : op ∈ line.opcodes ↔ .op op ∈ line := by
  rw [opcodes, List.mem_filterMap]
  constructor
  · rintro ⟨word, hword, h⟩
    cases word with
    | op code => exact Option.some.inj h ▸ hword
    | int _ => cases h
    | call _ => cases h
  · exact fun h => ⟨.op op, h, rfl⟩

/-- An instruction on a line that is not linked yet. -/
inductive Phrase
  | plain (i : Instruction)
  | call (index : UInt64)
deriving DecidableEq

namespace Phrase

def words : Phrase → Line
  | .plain i => i.words
  | .call index => [.op .subr, .call index]

def op : Phrase → Opcode
  | .plain i => i.op
  | .call _ => .subr

def Complete : Phrase → Prop
  | .plain i => i.Complete
  | .call _ => True

def text (phrases : List Phrase) : Line := phrases.flatMap words

@[simp] theorem text_nil : text [] = [] := rfl

@[simp] theorem text_cons (q : Phrase) (rest : List Phrase) :
    text (q :: rest) = q.words ++ text rest :=
  rfl

@[simp] theorem text_append (a b : List Phrase) : text (a ++ b) = text a ++ text b :=
  List.flatMap_append

theorem opcodes_words (q : Phrase) : Line.opcodes q.words = [q.op] := by
  cases q with
  | plain i => exact Line.opcodes_instr i.op i.operands
  | call index => rfl

theorem opcodes_text (phrases : List Phrase) : Line.opcodes (text phrases) = phrases.map op := by
  induction phrases with
  | nil => rfl
  | cons q rest ih => rw [text_cons, Line.opcodes_append, opcodes_words, ih, List.map_cons]; rfl

end Phrase

/-! ## Reading lines -/

def Line.MadeOf (permitted : Opcode → Bool) (code : Line) : Prop :=
  ∃ is : List Instruction, code = is.flatMap Instruction.words ∧
    ∀ i ∈ is, i.Complete ∧ permitted i.op = true

/-- Code that is made of complete phrases with a property. -/
def Line.Reads (A : Phrase → Prop) (code : Line) : Prop :=
  ∃ phrases, code = Phrase.text phrases ∧ ∀ q ∈ phrases, q.Complete ∧ A q

namespace Line.Reads

variable {A B : Phrase → Prop} {a b : Line}

theorem nil : Reads A [] := ⟨[], rfl, fun _ h => absurd h List.not_mem_nil⟩

theorem append (ha : Reads A a) (hb : Reads A b) : Reads A (a ++ b) := by
  obtain ⟨as, rfl, hA⟩ := ha
  obtain ⟨bs, rfl, hB⟩ := hb
  refine ⟨as ++ bs, (Phrase.text_append as bs).symm, fun q hq => ?_⟩
  rcases List.mem_append.mp hq with hq | hq
  · exact hA q hq
  · exact hB q hq

theorem single {q : Phrase} (hc : q.Complete) (hq : A q) : Reads A q.words := by
  refine ⟨[q], by simp, fun r hr => ?_⟩
  rw [List.mem_singleton] at hr
  subst hr
  exact ⟨hc, hq⟩

theorem of_instr {op : Opcode} {operands : List Int64} (hc : Instruction.Complete ⟨op, operands⟩)
    (h : A (.plain ⟨op, operands⟩)) : Reads A (instr op operands) :=
  single (q := .plain ⟨op, operands⟩) hc h

theorem mono (h : Reads A a) (hAB : ∀ q, A q → B q) : Reads B a := by
  obtain ⟨phrases, rfl, hA⟩ := h
  exact ⟨phrases, rfl, fun q hq => ⟨(hA q hq).1, hAB q (hA q hq).2⟩⟩

theorem of_madeOf {permitted : Opcode → Bool} (h : MadeOf permitted a)
    (hA : ∀ i : Instruction, permitted i.op = true → A (.plain i)) : Reads A a := by
  obtain ⟨is, rfl, hi⟩ := h
  refine ⟨is.map .plain, by rw [Phrase.text, List.flatMap_map]; rfl, fun q hq => ?_⟩
  obtain ⟨i, hm, rfl⟩ := List.mem_map.mp hq
  exact ⟨(hi i hm).1, hA i (hi i hm).2⟩

end Line.Reads

theorem Line.exists_pages : ∀ {lines : List Line} {B : Nat → List Phrase → Prop},
    (∀ k line, lines[k]? = some line → ∃ phrases, line = Phrase.text phrases ∧ B k phrases) →
    ∃ pages : List (List Phrase), lines = pages.map Phrase.text ∧
      ∀ k phrases, pages[k]? = some phrases → B k phrases
  | [], B, _ => ⟨[], rfl, by simp⟩
  | line :: rest, B, h => by
    obtain ⟨phrases, hline, hB⟩ := h 0 line rfl
    obtain ⟨pages, hrest, hpages⟩ := exists_pages (B := fun k => B (k + 1))
      fun k l hl => h (k + 1) l hl
    refine ⟨phrases :: pages, by rw [List.map_cons, ← hline, ← hrest], fun k page hk => ?_⟩
    rcases k with _ | k
    · obtain rfl := Option.some.inj hk
      exact hB
    · exact hpages k page hk

/-! ## All code can be read -/

/-- The phrases that code may hold in a setting: instructions with permitted opcodes, and calls of
subroutines that are there. -/
def Setting.Permits (s : Setting) (permitted : Opcode → Bool) : Phrase → Prop
  | .plain i => permitted i.op = true
  | .call index => ∃ sub, s.map.subroutine index = .ok sub

theorem Literal.code_eq_instr (value : Literal)
    (h : ∀ t, value = .string t → t.toList.length < UInt64.size / 2) :
    ∃ op operands, value.code = instr op operands ∧ Instruction.Complete ⟨op, operands⟩ ∧
      (op = .ldin ∨ op = .lstr) := by
  have number (n : Int64) : Instruction.Complete ⟨.ldin, [n]⟩ :=
    Instruction.complete_of_length (by decide) rfl
  cases value with
  | integer n => exact ⟨.ldin, _, rfl, number n, .inl rfl⟩
  | boolean b => exact ⟨.ldin, _, rfl, number _, .inl rfl⟩
  | character c => exact ⟨.ldin, _, rfl, number _, .inl rfl⟩
  | string t =>
    refine ⟨.lstr, _, rfl, ?_, .inr rfl⟩
    have hlen : (t.toList.map fun c => Int64.ofNat c.toNat).length < UInt64.size / 2 := by
      rw [List.length_map]
      exact h t rfl
    have complete := Instruction.complete_string hlen
    rwa [List.length_map] at complete

namespace Line.Reads

variable {s : Setting} {permitted : Opcode → Bool}

theorem codeLaw (h : ∀ op : Opcode, op.ordinary = true → permitted op = true) :
    CodeLaw s (Reads (s.Permits permitted)) where
  nil := nil
  append := append
  ordinary {op operands} hop hlen := by
    have hne : op ≠ .lstr := by
      rintro rfl
      cases hop
    exact of_instr (Instruction.complete_of_length hne hlen) (h op hop)
  call {index sub} hs := single (q := .call index) trivial ⟨sub, hs⟩

theorem literal (hnumber : permitted .ldin = true) (hstring : permitted .lstr = true)
    (value : Literal) (h : ∀ t, value = .string t → t.toList.length < UInt64.size / 2) :
    Reads (s.Permits permitted) value.code := by
  obtain ⟨op, operands, hcode, hc, rfl | rfl⟩ := value.code_eq_instr h
  · rw [hcode]
    exact of_instr hc hnumber
  · rw [hcode]
    exact of_instr hc hstring

theorem obeys_of_mem_sites {p : Program} (hnumber : permitted .ldin = true)
    (hstring : permitted .lstr = true)
    (hn : ∀ routine ∈ p.natives, routine.code.MadeOf permitted)
    (ht : ∀ t, .string t ∈ p.literals → t.toList.length < UInt64.size / 2) {x : Site}
    (hx : x ∈ p.sites) : x.Obeys (Reads (s.Permits permitted)) where
  native := by
    intro routine hr
    exact of_madeOf (hn routine (List.mem_filterMap.mpr ⟨x, hx, hr⟩)) fun i hi => hi
  literal := by
    intro value hv
    refine literal hnumber hstring value ?_
    rintro t rfl
    exact ht t (List.mem_filterMap.mpr ⟨x, hx, hv⟩)

end Line.Reads

end TurtleCode
