import Mathlib.Tactic.IntervalCases
import TurtleCode.Json.Draft
import TurtleCode.Json.Value

/-!
# The draft of a written value

What the text of a value is read as.  Written text has no flaws: cut into tokens it builds a draft
with the shape of the value, every container closed and nothing after it.  Strings and numbers of
the draft stand for what was written.

* `Json.draft` is the draft of a value.
* `ofText_render`: the text of a value has that draft.
* `decodePieces_stringPieces`: a written string stands for itself.
* `meaning_writtenNumber`: a written integer that fits a word means itself.
-/

namespace TurtleCode.Json

theorem tokensFrom_go {mode next : Mode} {c : Char} {given : List Token}
    (h : mode.step c = .go given next) (rest : List Char) :
    tokensFrom mode (c :: rest) = given ++ tokensFrom next rest := by
  rw [tokensFrom, h]

/-! ## Strings -/

/-- The part of a string that a written character becomes.  Control characters that have no letter
are written as units. -/
def charPiece (c : Char) : Piece :=
  match c with
  | '\x08' | '\t' | '\n' | '\x0c' | '\r' => .char c
  | _ => if c.toNat < 32 then .unit c.toNat else .char c

def stringPieces (s : String) : List Piece := s.toList.map charPiece

theorem hexDigit?_digitChar {d : Nat} (hd : d < 16) : hexDigit? (Nat.digitChar d) = some d := by
  interval_cases d <;> rfl

theorem tokensFrom_unit (ps : List Piece) {n : Nat} (hn : n < 256) (rest : List Char) :
    tokensFrom (.string ps) (['\\', 'u', '0', '0'] ++ controlDigits n ++ rest) =
      tokensFrom (.string (.unit n :: ps)) rest := by
  have hhigh := hexDigit?_digitChar (d := n / 16) (by omega)
  have hlow := hexDigit?_digitChar (d := n % 16) (by omega)
  have hvalue : 16 * (n / 16) + n % 16 = n := by omega
  change tokensFrom (.hex ps 0 2) (controlDigits n ++ rest) = _
  simp [controlDigits, tokensFrom, Mode.step, Mode.stepHex, hhigh, hlow, hvalue]

theorem tokensFrom_escapeChar (ps : List Piece) (c : Char) (rest : List Char) :
    tokensFrom (.string ps) (escapeChar c ++ rest) =
      tokensFrom (.string (charPiece c :: ps)) rest := by
  unfold escapeChar
  split
  iterate 7 rfl
  next hquote hslash hb ht hn hf hr =>
    have hpiece : charPiece c = if c.toNat < 32 then .unit c.toNat else .char c := by
      unfold charPiece
      split <;> simp_all
    rw [hpiece]
    split
    · next hcontrol => exact tokensFrom_unit ps (by omega) rest
    · next hplain =>
      have hstep : Mode.step (.string ps) c = .go [] (.string (.char c :: ps)) := by
        rw [Mode.step, if_neg hquote, if_neg hslash, if_neg hplain]
      exact tokensFrom_go hstep rest

theorem tokensFrom_escaped (ps : List Piece) (cs rest : List Char) :
    tokensFrom (.string ps) (cs.flatMap escapeChar ++ '"' :: rest) =
      .string (ps.reverse ++ cs.map charPiece) :: tokensFrom .between rest := by
  induction cs generalizing ps with
  | nil => simp [tokensFrom, Mode.step]
  | cons c cs ih =>
    rw [List.flatMap_cons, List.append_assoc, tokensFrom_escapeChar, ih]
    simp

theorem tokensFrom_stringChars (s : String) (rest : List Char) :
    tokensFrom .between (stringChars s ++ rest) =
      .string (stringPieces s) :: tokensFrom .between rest := by
  have hquoted := tokensFrom_escaped [] s.toList rest
  simpa [stringChars, stringPieces, tokensFrom, Mode.step, Mode.start] using hquoted

theorem decodeTo_charPiece (stop : Option StringBreak) (c : Char) (ps : List Piece) :
    decodeTo stop (charPiece c :: ps) = (do return c :: (← decodeTo stop ps)) := by
  unfold charPiece
  split
  iterate 5 rfl
  split
  · next hcontrol =>
    rw [decodeTo.eq_def]
    simp only [Char.ofNat_toNat, if_pos (Or.inl (show c.toNat < 0xD800 by omega))]
  · rfl

theorem decodePieces_stringPieces (s : String) : decodePieces (stringPieces s) = .ok s.toList := by
  have hlist : ∀ cs : List Char, decodePieces (cs.map charPiece) = .ok cs := by
    intro cs
    induction cs with
    | nil => rfl
    | cons c cs ih =>
      rw [decodePieces] at ih
      rw [List.map_cons, decodePieces, decodeTo_charPiece, ih]
      rfl
  exact hlist s.toList

/-! ## Numbers -/

def decimals (n : Nat) : List Nat := (Nat.toDigits 10 n).map fun c => c.toNat - '0'.toNat

def writtenNumber (n : Int) : Number where
  negative := decide (n < 0)
  whole := decimals n.natAbs

theorem digitChar_value {c : Char} (hc : c.isDigit = true) :
    c.toNat - '0'.toNat < 10 ∧ Nat.digitChar (c.toNat - '0'.toNat) = c := by
  have hrange : 48 ≤ c.toNat ∧ c.toNat ≤ 57 := Char.isDigit_iff_toNat.mp hc
  change c.toNat - 48 < 10 ∧ Nat.digitChar (c.toNat - 48) = c
  refine ⟨by omega, ?_⟩
  have hchar := Char.ofNat_toNat c
  generalize c.toNat = n at hrange hchar
  obtain ⟨hlow, hhigh⟩ := hrange
  subst hchar
  interval_cases n <;> rfl

theorem decimals_lt {n d : Nat} (hd : d ∈ decimals n) : d < 10 := by
  obtain ⟨c, hc, rfl⟩ := List.mem_map.mp hd
  exact (digitChar_value (Nat.isDigit_of_mem_toDigits (by decide) (by decide) hc)).1

theorem map_digitChar_decimals (n : Nat) : (decimals n).map Nat.digitChar = Nat.toDigits 10 n := by
  rw [decimals, List.map_map]
  refine (List.map_congr_left ?_).trans (List.map_id _)
  intro c hc
  exact (digitChar_value (Nat.isDigit_of_mem_toDigits (by decide) (by decide) hc)).2

theorem ofDigits_decimals (n : Nat) : Number.ofDigits (decimals n) = n := by
  rw [Number.ofDigits, decimals, List.foldl_map]
  exact Nat.ofDigitChars_toDigits (by decide) (by decide)

theorem decimals_zero_cons {n : Nat} {ds : List Nat} (h : decimals n = 0 :: ds) : ds = [] := by
  induction n using Nat.strongRecOn generalizing ds with
  | ind n ih =>
    rw [decimals, Nat.toDigits_eq_if (by decide)] at h
    split at h
    · exact (List.cons.inj h).2.symm
    · next hlarge =>
      rw [List.map_append] at h
      change decimals (n / 10) ++ _ = _ at h
      have hvalue := ofDigits_decimals (n / 10)
      cases hfirst : decimals (n / 10) with
      | nil =>
        rw [hfirst] at hvalue
        change 0 = n / 10 at hvalue
        omega
      | cons d first =>
        rw [hfirst, List.cons_append, List.cons.injEq] at h
        obtain ⟨rfl, -⟩ := h
        obtain rfl := ih (n / 10) (by omega) hfirst
        rw [hfirst] at hvalue
        change 0 = n / 10 at hvalue
        omega

/-- What may follow a value: the end of the text, or what goes on with a container or closes it.
None of it belongs to a number. -/
def EndsValue : List Char → Prop
  | [] => True
  | c :: _ => c = ',' ∨ c = ']' ∨ c = '\x7d'

theorem tokensFrom_complete {part : NumberPart} (hpart : part = .zero ∨ part = .whole) (n : Number)
    {rest : List Char} (hrest : EndsValue rest) :
    tokensFrom (.number part n) rest = .number n.ordered :: tokensFrom .between rest := by
  cases rest with
  | nil => rcases hpart with rfl | rfl <;> rfl
  | cons c rest => rcases hrest with rfl | rfl | rfl <;> rcases hpart with rfl | rfl <;> rfl

/-- Digits after the first go before those seen already, as these are kept in reverse. -/
theorem tokensFrom_digits {ds : List Nat} (hds : ∀ d ∈ ds, d < 10) (n : Number)
    (rest : List Char) :
    tokensFrom (.number .whole n) (ds.map Nat.digitChar ++ rest) =
      tokensFrom (.number .whole { n with whole := ds.reverse ++ n.whole }) rest := by
  induction ds generalizing n with
  | nil => rfl
  | cons d ds ih =>
    have hdigit : digit? (Nat.digitChar d) = some d := by
      have hd := hds d List.mem_cons_self
      interval_cases d <;> rfl
    have hstep : Mode.step (.number .whole n) (Nat.digitChar d) =
        .go [] (.number .whole { n with whole := d :: n.whole }) := by
      simp only [Mode.step, Mode.stepNumber, hdigit]
    rw [List.map_cons, List.cons_append, tokensFrom_go hstep,
      ih fun d hd => hds d (List.mem_cons_of_mem _ hd)]
    simp

/-- The digits of a number are one token.  `first` says where the first of them leads, be it after a
sign or without one. -/
theorem tokensFrom_decimals {mode : Mode} {negative : Bool}
    (first : ∀ d, d < 10 → mode.step (Nat.digitChar d) =
      .go [] (.number (if d = 0 then .zero else .whole) ⟨negative, [d], [], none⟩))
    (n : Nat) {rest : List Char} (hrest : EndsValue rest) :
    tokensFrom mode (Nat.toDigits 10 n ++ rest) =
      .number ⟨negative, decimals n, [], none⟩ :: tokensFrom .between rest := by
  rw [← map_digitChar_decimals]
  cases hds : decimals n with
  | nil => exact absurd (List.map_eq_nil_iff.mp hds) Nat.toDigits_ne_nil
  | cons d ds =>
    have hlt : ∀ x ∈ d :: ds, x < 10 := by
      intro x hx
      exact decimals_lt (hds ▸ hx)
    rw [List.map_cons, List.cons_append, tokensFrom_go (first d (hlt d List.mem_cons_self))]
    by_cases hzero : d = 0
    · -- A digit after a first zero would break the number, so there must be none.
      subst hzero
      obtain rfl := decimals_zero_cons hds
      exact tokensFrom_complete (.inl rfl) _ hrest
    · have hmore := tokensFrom_digits (fun x hx => hlt x (List.mem_cons_of_mem _ hx))
        ⟨negative, [d], [], none⟩ rest
      rw [if_neg hzero, List.nil_append, hmore, tokensFrom_complete (.inr rfl) _ hrest]
      simp [Number.ordered]

theorem tokensFrom_intChars (n : Int) {rest : List Char} (hrest : EndsValue rest) :
    tokensFrom .between (intChars n ++ rest) =
      .number (writtenNumber n) :: tokensFrom .between rest := by
  cases n with
  | ofNat k =>
    refine tokensFrom_decimals ?_ k hrest
    intro d hd
    interval_cases d <;> rfl
  | negSucc k =>
    have first : ∀ d, d < 10 → Mode.step (.number .sign ⟨true, [], [], none⟩) (Nat.digitChar d) =
        .go [] (.number (if d = 0 then .zero else .whole) ⟨true, [d], [], none⟩) := by
      intro d hd
      interval_cases d <;> rfl
    rw [writtenNumber, decide_eq_true (Int.negSucc_lt_zero k)]
    exact tokensFrom_decimals first (k + 1) hrest

/-- A written integer that fits a word, signed or not, means itself. -/
theorem meaning_writtenNumber {n : Int} (hlow : -(UInt64.size / 2 : Nat) ≤ n)
    (hhigh : n < UInt64.size) : (writtenNumber n).meaning = .ok (.integer n) := by
  by_cases hsign : n < 0
  · have hrange : 1 ≤ n.natAbs ∧ n.natAbs ≤ UInt64.size / 2 := by omega
    have hvalue : n = -(n.natAbs : Int) := by omega
    conv_rhs => rw [hvalue]
    simp [Number.meaning, writtenNumber, ofDigits_decimals, hsign, hrange, pure, Except.pure]
  · have hrange : n.natAbs < UInt64.size := by omega
    have hvalue : n = n.natAbs := by omega
    conv_rhs => rw [hvalue]
    simp [Number.meaning, writtenNumber, ofDigits_decimals, hsign, hrange, pure, Except.pure]

/-! ## Values -/

mutual

def draft : Json → Draft
  | .null => .null
  | .bool b => .bool b
  | .int n => .number (writtenNumber n)
  | .string s => .string (stringPieces s)
  | .array items => .array (draftItems items) .closed
  | .object members => .object (draftMembers members) .closed

def draftItems : List Json → List Draft
  | [] => []
  | item :: rest => item.draft :: draftItems rest

def draftMembers : List (String × Json) → List (List Piece × Draft)
  | [] => []
  | (key, value) :: rest => (stringPieces key, value.draft) :: draftMembers rest

end

namespace Draft

/-- Where a value is due that will be put into the innermost of the containers `inner`.  A bracket
may close an array there that is still empty. -/
def Awaits (frames : List Frame) (slot : Slot) (inner : List Frame) : Prop :=
  ∀ token, token ≠ .closeArray → move frames slot token = beginValue inner token

theorem awaits_root (frames : List Frame) : Awaits frames .root frames := by
  intro token _
  rfl

theorem awaits_item (frames : List Frame) (items : List Draft) (comma : Bool) :
    Awaits frames (.item items comma) (.array items :: frames) := by
  intro token htoken
  cases comma with
  | true => cases token <;> rfl
  | false =>
    cases token with
    | closeArray => exact absurd rfl htoken
    | _ => rfl

theorem awaits_value (frames : List Frame) (members : List (List Piece × Draft))
    (key : List Piece) : Awaits frames (.value members key) (.object members key :: frames) := by
  intro token _
  rfl

theorem build_move {frames : List Frame} {slot : Slot} {token : Token} {p : Progress}
    (h : move frames slot token = some p) (rest : List Token) :
    build (.within frames slot) (token :: rest) = build p rest := by
  rw [build, h]

theorem Awaits.build {frames inner : List Frame} {slot : Slot} (h : Awaits frames slot inner)
    {token : Token} {p : Progress} (hp : beginValue inner token = some p) (rest : List Token) :
    Draft.build (.within frames slot) (token :: rest) = Draft.build p rest := by
  refine build_move ?_ rest
  rw [h token (by rintro rfl; cases hp), hp]

end Draft

theorem endsValue_itemChars (items : List Json) (rest : List Char) :
    EndsValue (itemChars items ++ rest) := by
  cases items with
  | nil => exact .inr (.inl rfl)
  | cons item items => exact .inl rfl

theorem endsValue_memberChars (members : List (String × Json)) (rest : List Char) :
    EndsValue (memberChars members ++ rest) := by
  cases members with
  | nil => exact .inr (.inr rfl)
  | cons member members => exact .inl rfl

open Draft

theorem build_key (frames : List Frame) (before : List (List Piece × Draft)) (comma : Bool)
    (key : String) (rest : List Char) :
    build (.within frames (.key before comma))
        (tokensFrom .between (stringChars key ++ ':' :: rest)) =
      build (.within frames (.value before (stringPieces key))) (tokensFrom .between rest) := by
  rw [tokensFrom_stringChars]
  have hkey : move frames (.key before comma) (.string (stringPieces key)) =
      some (.within frames (.colon before (stringPieces key))) := by
    cases comma <;> rfl
  exact (build_move hkey _).trans (build_move rfl _)

mutual

/-- The text of a value builds its draft, wherever a value is due. -/
theorem build_chars : ∀ (j : Json) {frames inner : List Frame} {slot : Slot},
    Awaits frames slot inner → ∀ {rest : List Char}, EndsValue rest →
      build (.within frames slot) (tokensFrom .between (j.chars ++ rest)) =
        build (deliver j.draft inner) (tokensFrom .between rest)
  | .null, _, _, _, h, _, _ => h.build rfl _
  | .bool true, _, _, _, h, _, _ => h.build rfl _
  | .bool false, _, _, _, h, _, _ => h.build rfl _
  | .int n, _, _, _, h, _, hrest => by
    rw [chars, tokensFrom_intChars n hrest]
    exact h.build rfl _
  | .string s, _, _, _, h, _, _ => by
    rw [chars, tokensFrom_stringChars]
    exact h.build rfl _
  | .array [], _, inner, _, h, _, _ =>
    (h.build (p := .within inner (.item [] false)) rfl _).trans (build_move rfl _)
  | .array (item :: items), frames, inner, slot, h, rest, _ => by
    have htext : (array (item :: items)).chars ++ rest =
        '[' :: (item.chars ++ (itemChars items ++ rest)) := by
      simp [chars]
    calc build (.within frames slot) (tokensFrom .between ((array (item :: items)).chars ++ rest))
      _ = build (.within inner (.item [] false))
            (tokensFrom .between (item.chars ++ (itemChars items ++ rest))) := by
          rw [htext]
          exact h.build rfl _
      _ = build (.within inner (.afterItem [item.draft]))
            (tokensFrom .between (itemChars items ++ rest)) :=
          build_chars item (awaits_item inner [] false) (endsValue_itemChars items rest)
      _ = _ := build_itemChars items inner [item.draft] rest
  | .object [], _, inner, _, h, _, _ =>
    (h.build (p := .within inner (.key [] false)) rfl _).trans (build_move rfl _)
  | .object ((key, value) :: members), frames, inner, slot, h, rest, _ => by
    have htext : (object ((key, value) :: members)).chars ++ rest =
        '\x7b' :: (stringChars key ++ ':' :: (value.chars ++ (memberChars members ++ rest))) := by
      simp [chars]
    calc build (.within frames slot)
          (tokensFrom .between ((object ((key, value) :: members)).chars ++ rest))
      _ = build (.within inner (.key [] false)) (tokensFrom .between
            (stringChars key ++ ':' :: (value.chars ++ (memberChars members ++ rest)))) := by
          rw [htext]
          exact h.build rfl _
      _ = build (.within inner (.value [] (stringPieces key)))
            (tokensFrom .between (value.chars ++ (memberChars members ++ rest))) :=
          build_key inner [] false key _
      _ = build (.within inner (.afterMember [(stringPieces key, value.draft)]))
            (tokensFrom .between (memberChars members ++ rest)) :=
          build_chars value (awaits_value inner [] _) (endsValue_memberChars members rest)
      _ = _ := build_memberChars members inner [(stringPieces key, value.draft)] rest

theorem build_itemChars : ∀ (items : List Json) (frames : List Frame) (before : List Draft)
    (rest : List Char),
    build (.within frames (.afterItem before)) (tokensFrom .between (itemChars items ++ rest)) =
      build (deliver (.array (before.reverse ++ draftItems items) .closed) frames)
        (tokensFrom .between rest)
  | [], frames, before, rest => by
    rw [draftItems, List.append_nil]
    exact build_move rfl _
  | item :: items, frames, before, rest => by
    have htext : itemChars (item :: items) ++ rest =
        ',' :: (item.chars ++ (itemChars items ++ rest)) := by
      simp [itemChars]
    have hitems := build_itemChars items frames (item.draft :: before) rest
    rw [List.reverse_cons, List.append_assoc, List.singleton_append] at hitems
    calc build (.within frames (.afterItem before))
          (tokensFrom .between (itemChars (item :: items) ++ rest))
      _ = build (.within frames (.item before true))
            (tokensFrom .between (item.chars ++ (itemChars items ++ rest))) := by
          rw [htext]
          exact build_move rfl _
      _ = build (.within frames (.afterItem (item.draft :: before)))
            (tokensFrom .between (itemChars items ++ rest)) :=
          build_chars item (awaits_item frames before true) (endsValue_itemChars items rest)
      _ = _ := hitems

theorem build_memberChars : ∀ (members : List (String × Json)) (frames : List Frame)
    (before : List (List Piece × Draft)) (rest : List Char),
    build (.within frames (.afterMember before))
        (tokensFrom .between (memberChars members ++ rest)) =
      build (deliver (.object (before.reverse ++ draftMembers members) .closed) frames)
        (tokensFrom .between rest)
  | [], frames, before, rest => by
    rw [draftMembers, List.append_nil]
    exact build_move rfl _
  | (key, value) :: members, frames, before, rest => by
    have htext : memberChars ((key, value) :: members) ++ rest =
        ',' :: (stringChars key ++ ':' :: (value.chars ++ (memberChars members ++ rest))) := by
      simp [memberChars]
    have hmembers :=
      build_memberChars members frames ((stringPieces key, value.draft) :: before) rest
    rw [List.reverse_cons, List.append_assoc, List.singleton_append] at hmembers
    calc build (.within frames (.afterMember before))
          (tokensFrom .between (memberChars ((key, value) :: members) ++ rest))
      _ = build (.within frames (.key before true)) (tokensFrom .between
            (stringChars key ++ ':' :: (value.chars ++ (memberChars members ++ rest)))) := by
          rw [htext]
          exact build_move rfl _
      _ = build (.within frames (.value before (stringPieces key)))
            (tokensFrom .between (value.chars ++ (memberChars members ++ rest))) :=
          build_key frames before true key _
      _ = build (.within frames (.afterMember ((stringPieces key, value.draft) :: before)))
            (tokensFrom .between (memberChars members ++ rest)) :=
          build_chars value (awaits_value frames before _) (endsValue_memberChars members rest)
      _ = _ := hmembers

end

/-- The text of a value has the draft of the value, and nothing follows it. -/
theorem ofText_render (j : Json) : Draft.ofText j.render = ⟨j.draft, false⟩ := by
  have hbuilt := build_chars j (awaits_root []) (show EndsValue [] from trivial)
  rw [List.append_nil] at hbuilt
  rw [Draft.ofText, render, String.toList_ofList]
  exact hbuilt

end TurtleCode.Json
