import Mathlib.Data.List.Nodup
import TurtleCode.Pcode.Listing
import TurtleCode.Proofs.Grammar

/-!
# Texts that can be read in one way

The text of an instruction says which instruction it is, and where it ends.  An opcode is a word of
letters, a number one of digits, and a string stands between quotes, with every quote of its own
escaped.

* `Legible write Valid Ends`: what `write` makes of a value can be read in one way, if what follows
  is of the kind `Ends`.
* `Legible.word`: words of characters that nothing begins with that follows them.
* `Legible.many`: texts one after another, up to something that none of them begins with.
* `Text.legible_zeroFilled`, `Text.legible_escapeChar`: numbers and characters.
* `Instruction.legible_text`: instructions.
-/

namespace TurtleCode

/-- What is written can be read in one way: texts of two values that go on to the same text are
texts of one value, and the same follows them.  The values have to be `Valid`, and what follows of a
kind that `Ends` a text. -/
def Legible {α : Type} (write : α → List Char) (Valid : α → Prop)
    (Ends : List Char → Prop) : Prop :=
  ∀ ⦃a b : α⦄ ⦃r s : List Char⦄, Valid a → Valid b → Ends r → Ends s →
    write a ++ r = write b ++ s → a = b ∧ r = s

namespace Legible

variable {α β : Type} {write : α → List Char} {Valid : α → Prop} {Ends : List Char → Prop}

def Free (P : Char → Prop) (r : List Char) : Prop := ∀ c ∈ r.head?, ¬ P c

theorem append_inj_of_free {P : Char → Prop} {v w r s : List Char} (hv : ∀ c ∈ v, P c)
    (hw : ∀ c ∈ w, P c) (hr : Free P r) (hs : Free P s) (h : v ++ r = w ++ s) : v = w ∧ r = s := by
  -- the longer of the two words has a character where the shorter one has ended
  rcases List.append_eq_append_iff.mp h with ⟨more, rfl, rfl⟩ | ⟨more, rfl, rfl⟩
  · cases more with
    | nil => simp
    | cons c more => exact absurd (hw c (by simp)) (hr c rfl)
  · cases more with
    | nil => simp
    | cons c more => exact absurd (hv c (by simp)) (hs c rfl)

/-- **Words** of characters of one kind, before something that does not begin with one of this
kind. -/
theorem word {P : Char → Prop} (hP : ∀ a, Valid a → ∀ c ∈ write a, P c)
    (hinj : ∀ a b, Valid a → Valid b → write a = write b → a = b) :
    Legible write Valid (Free P) := by
  intro a b r s ha hb hr hs h
  obtain ⟨hwords, hrest⟩ := append_inj_of_free (hP a ha) (hP b hb) hr hs h
  exact ⟨hinj a b ha hb hwords, hrest⟩

theorem comp {f : β → α} {Valid' : β → Prop} (h : Legible write Valid Ends)
    (hvalid : ∀ b, Valid' b → Valid (f b)) (hinj : ∀ a b, Valid' a → Valid' b → f a = f b → a = b) :
    Legible (fun b => write (f b)) Valid' Ends := by
  intro a b r s ha hb hr hs he
  obtain ⟨hvalues, hrest⟩ := h (hvalid a ha) (hvalid b hb) hr hs he
  exact ⟨hinj a b ha hb hvalues, hrest⟩

/-- Before texts one after another, and before what ends them, a text can end. -/
theorem ends_flatMap {Stops : List Char → Prop} (hnext : ∀ a r, Valid a → Ends (write a ++ r))
    (hends : ∀ r, Stops r → Ends r) {l : List α} {r : List Char} (hl : ∀ a ∈ l, Valid a)
    (hr : Stops r) : Ends (l.flatMap write ++ r) := by
  cases l with
  | nil => exact hends r hr
  | cons a l =>
    rw [List.flatMap_cons, List.append_assoc]
    exact hnext a _ (hl a List.mem_cons_self)

/-- **Texts one after another**, up to something that none of them begins with. -/
theorem many {Stops : List Char → Prop} (h : Legible write Valid Ends)
    (hnext : ∀ a r, Valid a → Ends (write a ++ r)) (hends : ∀ r, Stops r → Ends r)
    (hstop : ∀ a r, Valid a → ¬ Stops (write a ++ r)) :
    Legible (fun l : List α => l.flatMap write) (fun l => ∀ a ∈ l, Valid a) Stops := by
  intro l m r s hl hm hr hs he
  induction l generalizing m with
  | nil =>
    cases m with
    | nil => exact ⟨rfl, he⟩
    | cons b m =>
      simp only [List.flatMap_nil, List.nil_append, List.flatMap_cons, List.append_assoc] at he
      exact absurd (he ▸ hr) (hstop b _ (hm b List.mem_cons_self))
  | cons a l ih =>
    cases m with
    | nil =>
      simp only [List.flatMap_nil, List.nil_append, List.flatMap_cons, List.append_assoc] at he
      exact absurd (he ▸ hs) (hstop a _ (hl a List.mem_cons_self))
    | cons b m =>
      obtain ⟨ha, hl⟩ := List.forall_mem_cons.mp hl
      obtain ⟨hb, hm⟩ := List.forall_mem_cons.mp hm
      simp only [List.flatMap_cons, List.append_assoc] at he
      obtain ⟨hfirst, hmore⟩ := h ha hb (ends_flatMap hnext hends hl hr)
        (ends_flatMap hnext hends hm hs) he
      obtain ⟨hrest, hfollows⟩ := ih hl hm hmore
      exact ⟨List.cons_eq_cons.mpr ⟨hfirst, hrest⟩, hfollows⟩

end Legible

/-! ## Numbers -/

namespace Text

def IsNumeric (c : Char) : Prop := c.isDigit = true ∨ c = '-'

theorem isDigit_zero_padded {k n : Nat} {c : Char}
    (h : c ∈ List.replicate k '0' ++ Nat.toDigits 10 n) : c.isDigit = true := by
  rcases List.mem_append.mp h with h | h
  · rw [List.eq_of_mem_replicate h]
    rfl
  · exact Nat.isDigit_of_mem_toDigits (by decide) (by decide) h

/-- A number is written as a sign, if it is negative, zeroes that fill it up, and its digits. -/
theorem toList_zeroFilled (width : Nat) (n : Int) : ∃ k, (zeroFilled width n).toList =
    (if n < 0 then ['-'] else []) ++ (List.replicate k '0' ++ Nat.toDigits 10 n.natAbs) := by
  unfold zeroFilled
  split
  · exact ⟨width - 1 - (toString n.natAbs).length, by simp [fillLeft]⟩
  · exact ⟨width - (toString n.natAbs).length, by simp [fillLeft]⟩

theorem decimal_eq (n : Int) : decimal n = zeroFilled 0 n := by
  unfold decimal zeroFilled
  rw [Int.toString_eq_repr, Int.repr_eq_if]
  by_cases hn : 0 ≤ n
  · rw [if_pos hn, if_neg (by omega)]
    simp [fillLeft, show n.natAbs = n.toNat by omega]
  · rw [if_neg hn, if_pos (by omega)]
    simp [fillLeft, show n.natAbs = (-n).toNat by omega]

theorem value_zero_padded (k n : Nat) :
    Nat.ofDigitChars 10 (List.replicate k '0' ++ Nat.toDigits 10 n) 0 = n := by
  rw [Nat.ofDigitChars_append, Nat.ofDigitChars_replicate_zero, Nat.mul_zero,
    Nat.ofDigitChars_toDigits (by decide) (by decide)]

theorem zero_padded_inj {j k m n : Nat} (h : List.replicate j '0' ++ Nat.toDigits 10 m =
    List.replicate k '0' ++ Nat.toDigits 10 n) : m = n := by
  rw [← value_zero_padded j m, h, value_zero_padded]

theorem zeroFilled_inj {width : Nat} {m n : Int}
    (h : (zeroFilled width m).toList = (zeroFilled width n).toList) : m = n := by
  obtain ⟨j, hj⟩ := toList_zeroFilled width m
  obtain ⟨k, hk⟩ := toList_zeroFilled width n
  have no_sign : ∀ (k n : Nat), '-' ∉ List.replicate k '0' ++ Nat.toDigits 10 n := by
    intro k n hmem
    exact absurd (isDigit_zero_padded hmem) (by decide)
  rw [hj, hk] at h
  by_cases hm : m < 0 <;> by_cases hn : n < 0
  · rw [if_pos hm, if_pos hn] at h
    have := zero_padded_inj (List.append_cancel_left h)
    omega
  · rw [if_pos hm, if_neg hn, List.nil_append] at h
    exact absurd (h ▸ List.mem_cons_self) (no_sign k n.natAbs)
  · rw [if_neg hm, if_pos hn, List.nil_append] at h
    exact absurd (h ▸ List.mem_cons_self) (no_sign j m.natAbs)
  · rw [if_neg hm, if_neg hn] at h
    have := zero_padded_inj (List.append_cancel_left h)
    omega

theorem isNumeric_zeroFilled {width : Nat} {n : Int} {c : Char}
    (h : c ∈ (zeroFilled width n).toList) : IsNumeric c := by
  obtain ⟨k, hk⟩ := toList_zeroFilled width n
  rw [hk] at h
  rcases List.mem_append.mp h with h | h
  · split at h
    · exact .inr (List.mem_singleton.mp h)
    · cases h
  · exact .inl (isDigit_zero_padded h)

theorem legible_zeroFilled (width : Nat) :
    Legible (fun n => (zeroFilled width n).toList) (fun _ => True) (Legible.Free IsNumeric) :=
  .word (fun _ _ _ hc => isNumeric_zeroFilled hc) (fun _ _ _ _ h => zeroFilled_inj h)

/-! ## Characters -/

theorem mem_hexDigits {n : Nat} {c : Char} (h : c ∈ hexDigits n) : ∃ d, c = Nat.digitChar d := by
  unfold hexDigits at h
  induction n using Nat.strongRecOn with
  | ind n ih =>
    rw [Nat.toDigits_eq_if (by decide)] at h
    split at h
    · exact ⟨n, List.mem_singleton.mp h⟩
    · rcases List.mem_append.mp h with h | h
      · exact ih (n / 16) (by omega) h
      · exact ⟨n % 16, List.mem_singleton.mp h⟩

theorem hexDigits_inj {m n : Nat} (h : hexDigits m = hexDigits n) : m = n := by
  have digit_inj : ∀ d < 16, ∀ e < 16, Nat.digitChar d = Nat.digitChar e → d = e := by decide
  unfold hexDigits at h
  -- the last digits are the same, and so are the others
  induction m using Nat.strongRecOn generalizing n with
  | ind m ih =>
    rw [Nat.toDigits_eq_if (by decide) (n := m), Nat.toDigits_eq_if (by decide) (n := n)] at h
    by_cases hm : m < 16 <;> by_cases hn : n < 16
    · rw [if_pos hm, if_pos hn] at h
      exact digit_inj m hm n hn (List.singleton_inj.mp h)
    · rw [if_pos hm, if_neg hn] at h
      exact absurd (List.append_eq_singleton_iff.mp h.symm) (by simp [Nat.toDigits_ne_nil])
    · rw [if_neg hm, if_pos hn] at h
      exact absurd (List.append_eq_singleton_iff.mp h) (by simp [Nat.toDigits_ne_nil])
    · rw [if_neg hm, if_neg hn] at h
      obtain ⟨hfirst, hlast⟩ := List.append_inj' h rfl
      have := ih (m / 16) (by omega) hfirst
      have := digit_inj (m % 16) (by omega) (n % 16) (by omega) (List.singleton_inj.mp hlast)
      omega

theorem legible_hexDigits :
    Legible hexDigits (fun _ => True) (Legible.Free (· ≠ '\x7d')) := by
  refine .word ?_ fun _ _ _ _ h => hexDigits_inj h
  intro n _ c hc
  obtain ⟨d, rfl⟩ := mem_hexDigits hc
  exact Nat.digitChar_ne '\x7d' rfl

def letters : List (Char × Char) :=
  [('\x00', '0'), ('\t', 't'), ('\n', 'n'), ('\r', 'r'), ('"', '"'), ('\\', '\\')]

/-- The three ways to write a character between quotes. -/
inductive Escaped : Char → List Char → Prop
  | letter {c letter : Char} : (c, letter) ∈ letters → Escaped c ['\\', letter]
  | code (c : Char) : Escaped c (escapeCode c)
  | plain {c : Char} : c ≠ '\\' → c ≠ '"' → c ≠ '\n' → Escaped c [c]

theorem escaped_escapeChar (c : Char) : Escaped c (escapeChar c) := by
  unfold escapeChar
  split
  iterate 6 exact .letter (by simp [letters])
  next hnul htab hline hreturn hquote hslash =>
    split
    · exact .code c
    · exact .plain hslash hquote hline

namespace Escaped

variable {c d : Char} {v w : List Char}

theorem head (h : Escaped c v) : ∃ first more, v = first :: more ∧ first ≠ '"' := by
  cases h with
  | letter _ => exact ⟨_, _, rfl, by decide⟩
  | code => exact ⟨_, _, rfl, by decide⟩
  | plain _ hquote _ => exact ⟨_, _, rfl, hquote⟩

theorem line_not_mem (h : Escaped c v) : '\n' ∉ v := by
  cases h with
  | letter hletter =>
    have hall : ∀ pair ∈ letters, '\n' ∉ ['\\', pair.2] := by decide
    exact hall _ hletter
  | code =>
    intro h
    simp only [escapeCode, List.cons_append, List.nil_append, List.mem_cons, List.mem_append] at h
    rcases h with h | h | h | h | h
    · exact absurd h (by decide)
    · exact absurd h (by decide)
    · exact absurd h (by decide)
    · obtain ⟨d, hd⟩ := mem_hexDigits h
      exact Nat.digitChar_ne '\n' rfl hd.symm
    · exact absurd h (by decide)
  | plain _ _ hline => simpa using Ne.symm hline

/-- A backslash begins both of the other ways, and the letter after it tells them apart. -/
theorem unique {r s : List Char} (hc : Escaped c v) (hd : Escaped d w) (h : v ++ r = w ++ s) :
    c = d ∧ r = s := by
  have not_u : ∀ pair ∈ letters, pair.2 ≠ 'u' := by decide
  have same : ∀ pair ∈ letters, ∀ pair' ∈ letters, pair.2 = pair'.2 → pair.1 = pair'.1 := by decide
  cases hc with
  | letter hl =>
    cases hd with
    | letter hl' =>
      obtain ⟨hletter, hrest⟩ : _ ∧ r = s := by simpa using h
      exact ⟨same _ hl _ hl' hletter, hrest⟩
    | code => exact absurd (List.cons.inj (List.cons.inj h).2).1 (not_u _ hl)
    | plain hslash _ _ => exact absurd (List.cons.inj h).1.symm hslash
  | code =>
    cases hd with
    | letter hl' => exact absurd (List.cons.inj (List.cons.inj h).2).1.symm (not_u _ hl')
    | code =>
      simp only [escapeCode, List.append_assoc] at h
      obtain ⟨hcode, hrest⟩ := legible_hexDigits trivial trivial (by simp [Legible.Free])
        (by simp [Legible.Free]) (List.append_cancel_left h)
      exact ⟨Char.toNat_inj.mp hcode, List.append_cancel_left hrest⟩
    | plain hslash _ _ => exact absurd (List.cons.inj h).1.symm hslash
  | plain hslash _ _ =>
    cases hd with
    | letter _ => exact absurd (List.cons.inj h).1 hslash
    | code => exact absurd (List.cons.inj h).1 hslash
    | plain _ _ _ => exact List.cons.inj h

end Escaped

/-- **Characters**: each way to write one says which it is and where it ends. -/
theorem legible_escapeChar : Legible escapeChar (fun _ => True) (fun _ => True) :=
  fun c d _ _ _ _ _ _ h => (escaped_escapeChar c).unique (escaped_escapeChar d) h

end Text

/-! ## Instructions -/

namespace Opcode

theorem mnemonic_inj {op op' : Opcode} (h : op.mnemonic = op'.mnemonic) : op = op' := by
  have hnodup : (all.map mnemonic).Nodup := by decide +kernel
  have mem_all : ∀ op : Opcode, op ∈ all := fun op =>
    List.mem_of_getElem? (all_getElem?_number op)
  exact List.inj_on_of_nodup_map hnodup (mem_all op) (mem_all op') h

theorem isUpper_mnemonic (op : Opcode) : ∀ c ∈ op.mnemonic.toList, c.isUpper = true := by
  rw [← List.all_eq_true]
  cases op <;> rfl

theorem mnemonic_ne_nil (op : Opcode) : op.mnemonic.toList ≠ [] := by
  cases op <;> exact List.cons_ne_nil _ _

theorem legible_mnemonic : Legible (fun op : Opcode => op.mnemonic.toList) (fun _ => True)
    (Legible.Free (·.isUpper = true)) :=
  .word (fun op _ => op.isUpper_mnemonic) fun _ _ _ _ h => mnemonic_inj (String.toList_inj.mp h)

theorem takesAddress_iff {op : Opcode} :
    op.takesAddress = true ↔ op = .jump ∨ op = .ifno ∨ op = .subr := by
  cases op <;> decide

theorem operandCount_of_takesAddress {op : Opcode} (h : op.takesAddress = true) :
    op.operandCount = 1 := by
  rcases takesAddress_iff.mp h with rfl | rfl | rfl <;> rfl

end Opcode

namespace Instruction

def IsCharacter (code : Int64) : Prop := ∃ c : Char, code.toInt = c.toNat

theorem character_eq {code : Int64} {c : Char} (h : code.toInt = c.toNat) : character code = c := by
  have hvalid : c.toNat.isValidChar := c.valid
  unfold character
  rw [h]
  exact (if_pos hvalid).trans (Char.ofNat_toNat c)

theorem character_inj {code code' : Int64} (hcode : IsCharacter code) (hcode' : IsCharacter code')
    (h : character code = character code') : code = code' := by
  obtain ⟨c, hc⟩ := hcode
  obtain ⟨d, hd⟩ := hcode'
  rw [character_eq hc, character_eq hd] at h
  subst h
  exact Int64.toInt_inj.mp (hc.trans hd.symm)

theorem legible_characters :
    Legible (fun codes : List Int64 => codes.flatMap fun code => Text.escapeChar (character code))
      (fun codes => ∀ code ∈ codes, IsCharacter code) (fun r => r.head? = some '"') := by
  have hone : Legible (fun code => Text.escapeChar (character code)) IsCharacter fun _ => True :=
    Text.legible_escapeChar.comp (fun _ _ => trivial) fun _ _ => character_inj
  refine hone.many (fun _ _ _ => trivial) (fun _ _ => trivial) ?_
  intro code r _ hstop
  obtain ⟨first, more, hfirst, hquote⟩ := (Text.escaped_escapeChar (character code)).head
  rw [hfirst] at hstop
  exact hquote (Option.some.inj hstop)

def Breaks (r : List Char) : Prop := ∀ c ∈ r.head?, c = ' ' ∨ c = '\n'

theorem Breaks.free {P : Char → Prop} {r : List Char} (h : Breaks r) (hspace : ¬ P ' ')
    (hline : ¬ P '\n') : Legible.Free P r := by
  intro c hc
  rcases h c hc with rfl | rfl
  · exact hspace
  · exact hline

def numbers (operands : List Int64) : List Char :=
  operands.flatMap fun n => ' ' :: (Text.decimal n.toInt).toList

theorem breaks_numbers (operands : List Int64) {r : List Char} (hr : Breaks r) :
    Breaks (numbers operands ++ r) := by
  cases operands with
  | nil => exact hr
  | cons n operands => simp [Breaks, numbers]

/-- Numbers are told apart if it is known how many there are. -/
theorem numbers_unique {r s : List Char} (hr : Breaks r) (hs : Breaks s) :
    ∀ {xs ys : List Int64}, xs.length = ys.length → numbers xs ++ r = numbers ys ++ s →
      xs = ys ∧ r = s
  | [], [], _, h => ⟨rfl, h⟩
  | x :: xs, y :: ys, hlength, h => by
    have free : ∀ (zs : List Int64) {r : List Char}, Breaks r →
        Legible.Free Text.IsNumeric (numbers zs ++ r) := fun zs r hr =>
      (breaks_numbers zs hr).free (by simp [Text.IsNumeric]) (by simp [Text.IsNumeric])
    have hnumbers : ∀ (z : Int64) (zs : List Int64) (r : List Char), numbers (z :: zs) ++ r =
        ' ' :: ((Text.zeroFilled 0 z.toInt).toList ++ (numbers zs ++ r)) := by
      intro z zs r
      simp [numbers, Text.decimal_eq]
    rw [hnumbers, hnumbers] at h
    obtain ⟨hfirst, hmore⟩ := Text.legible_zeroFilled 0 trivial trivial (free xs hr) (free ys hs)
      (List.cons.inj h).2
    obtain ⟨hrest, hfollows⟩ := numbers_unique hr hs (Nat.succ.inj hlength) hmore
    exact ⟨List.cons_eq_cons.mpr ⟨Int64.toInt_inj.mp hfirst, hrest⟩, hfollows⟩

def arguments (i : Instruction) : List Char :=
  if i.op = .lstr then ' ' :: Text.quote (i.operands.tail.map character)
  else if i.op.takesAddress then
    [' ', '(', '→', ' '] ++ ((Text.zeroFilled 4 (i.operands.headD 0).toInt).toList ++ [')'])
  else numbers i.operands

theorem toList_text (i : Instruction) : i.text.toList = i.op.mnemonic.toList ++ i.arguments := by
  have fold : ∀ (operands : List Int64) (text : String),
      (operands.foldl (fun text n => text ++ " " ++ Text.decimal n.toInt) text).toList =
        text.toList ++ numbers operands := by
    intro operands
    induction operands with
    | nil => simp [numbers]
    | cons n operands ih =>
      intro text
      rw [List.foldl_cons, ih]
      simp [numbers]
  unfold text arguments
  split
  · simp
  · split
    · simp
    · exact fold i.operands i.op.mnemonic

theorem breaks_arguments (i : Instruction) {r : List Char} (hr : Breaks r) :
    Breaks (i.arguments ++ r) := by
  unfold arguments
  split
  · simp [Breaks]
  · split
    · simp [Breaks]
    · exact breaks_numbers i.operands hr

/-- An instruction that can be told by its text: it is one of the grammar, and the characters of a
string constant are code points. -/
structure Spelled (i : Instruction) : Prop where
  wellFormed : i.WellFormed
  characters : i.op = .lstr → ∀ code ∈ i.operands.tail, IsCharacter code

theorem arguments_unique {op : Opcode} {xs ys : List Int64} {r s : List Char}
    (hxs : Spelled ⟨op, xs⟩) (hys : Spelled ⟨op, ys⟩) (hr : Breaks r) (hs : Breaks s)
    (h : arguments ⟨op, xs⟩ ++ r = arguments ⟨op, ys⟩ ++ s) : xs = ys ∧ r = s := by
  obtain ⟨hwell, hcodes⟩ := hxs
  obtain ⟨hwell', hcodes'⟩ := hys
  cases hwell with
  | @string length characters hlength =>
    cases hwell' with
    | plain hop _ => exact absurd rfl hop
    | @string length' characters' hlength' =>
      have hquoted : ∀ (n : Int64) (codes : List Int64) (r : List Char),
          arguments ⟨.lstr, n :: codes⟩ ++ r =
            ' ' :: '"' :: ((codes.flatMap fun code => Text.escapeChar (character code)) ++
              '"' :: r) := by
        intro n codes r
        simp [arguments, Text.quote, List.flatMap_map]
      rw [hquoted, hquoted] at h
      obtain ⟨rfl, hrest⟩ := legible_characters (hcodes rfl) (hcodes' rfl) rfl rfl
        (List.cons.inj (List.cons.inj h).2).2
      obtain rfl : length = length' := Int64.toInt_inj.mp (hlength.trans hlength'.symm)
      exact ⟨rfl, (List.cons.inj hrest).2⟩
  | plain hop hcount =>
    cases hwell' with
    | string _ => exact absurd rfl hop
    | plain _ hcount' =>
      unfold arguments at h
      rw [if_neg hop, if_neg hop] at h
      by_cases haddress : op.takesAddress = true
      · have hone := Opcode.operandCount_of_takesAddress haddress
        obtain ⟨x, rfl⟩ := List.length_eq_one_iff.mp (hcount.trans hone)
        obtain ⟨y, rfl⟩ := List.length_eq_one_iff.mp (hcount'.trans hone)
        have free : ∀ r, Legible.Free Text.IsNumeric (')' :: r) := by
          simp [Legible.Free, Text.IsNumeric]
        simp only [if_pos haddress, List.append_assoc] at h
        obtain ⟨htarget, hrest⟩ := Text.legible_zeroFilled 4 trivial trivial (free r) (free s)
          (List.append_cancel_left h)
        exact ⟨congrArg (fun n => [n]) (Int64.toInt_inj.mp htarget), (List.cons.inj hrest).2⟩
      · rw [if_neg haddress, if_neg haddress] at h
        exact numbers_unique hr hs (hcount.trans hcount'.symm) h

/-- **Instructions**: the text of one says which it is and where it ends. -/
theorem legible_text : Legible (fun i : Instruction => i.text.toList) Spelled Breaks := by
  rintro ⟨op, xs⟩ ⟨op', ys⟩ r s hi hj hr hs h
  simp only [toList_text, List.append_assoc] at h
  have free : ∀ (i : Instruction) {r : List Char}, Breaks r →
      Legible.Free (·.isUpper = true) (i.arguments ++ r) := fun i r hr =>
    (i.breaks_arguments hr).free (by decide) (by decide)
  obtain ⟨hop, hrest⟩ := Opcode.legible_mnemonic trivial trivial (free ⟨op, xs⟩ hr)
    (free ⟨op', ys⟩ hs) h
  subst hop
  obtain ⟨rfl, hfollows⟩ := arguments_unique hi hj hr hs hrest
  exact ⟨rfl, hfollows⟩

theorem text_head (i : Instruction) : ∃ first more, i.text.toList = first :: more ∧
    first.isUpper = true := by
  have hupper := i.op.isUpper_mnemonic
  rw [toList_text]
  cases hmnemonic : i.op.mnemonic.toList with
  | nil => exact absurd hmnemonic i.op.mnemonic_ne_nil
  | cons first more =>
    rw [hmnemonic] at hupper
    exact ⟨first, more ++ i.arguments, rfl, hupper first List.mem_cons_self⟩

theorem line_not_mem_text (i : Instruction) : '\n' ∉ i.text.toList := by
  have not_numeric : ¬ Text.IsNumeric '\n' := by simp [Text.IsNumeric]
  have number : ∀ (width : Nat) (n : Int), '\n' ∉ (Text.zeroFilled width n).toList :=
    fun _ _ h => not_numeric (Text.isNumeric_zeroFilled h)
  rw [toList_text, List.mem_append, not_or]
  refine ⟨fun h => absurd (i.op.isUpper_mnemonic _ h) (by decide), ?_⟩
  unfold arguments
  split
  · have escaped : ∀ c, '\n' ∉ Text.escapeChar c :=
      fun c => (Text.escaped_escapeChar c).line_not_mem
    simp [Text.quote, escaped]
  · split
    · simp [number]
    · simp [numbers, Text.decimal_eq, number]

end Instruction

end TurtleCode
