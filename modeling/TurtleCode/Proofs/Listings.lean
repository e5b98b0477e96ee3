import TurtleCode.Proofs.Spelling

/-!
# What a listing says

A listing has a row for each line of the program, with its address and its instructions.  Nothing is
lost: programs with the same listing are the same.  The rows of lines that a jump or a call goes to,
and only these, have an arrow and a rule above them.

* `parses_of_decodeFrom`: the instructions of a program make up its lines.
* `Entry`: what is listed of a line, `Entry.rows` its rows of text.
* `Entry.legible_text`: the text of a line can be read in one way.  `Entry.texts_inj`: so can that
  of several lines.
* `Entry.rule_above`, `Entry.exists_arrowed`: where rules and arrows stand.
* `Pcode.entries`: what is listed of a program, `Pcode.marked_iff` which lines of it are marked.
* `Pcode.listing_faithful`: all of it together.
-/

namespace TurtleCode

theorem parses_of_decodeFrom : ∀ {lines : List (List Int64)} {address : Nat}
    {pages : List (List Instruction)}, decodeFrom address lines = .ok pages →
    lines = pages.map (·.flatMap Instruction.values) ∧ ∀ line ∈ pages, ∀ i ∈ line, i.WellFormed
  | [], _, _, h => by
    cases h
    exact ⟨rfl, by simp⟩
  | line :: rest, address, pages, h => by
    rw [decodeFrom] at h
    obtain ⟨here, hhere, h⟩ := Result.bind_eq_ok.mp h
    obtain ⟨more, hmore, h⟩ := Result.bind_eq_ok.mp h
    cases h
    obtain ⟨hwell, hvalues⟩ := decodeLine_eq_ok.mp hhere
    obtain ⟨hlines, hrest⟩ := parses_of_decodeFrom hmore
    exact ⟨by rw [List.map_cons, hvalues, ← hlines], List.forall_mem_cons.mpr ⟨hwell, hrest⟩⟩

/-! ## The text of a line -/

structure Entry where
  marked : Bool
  address : Nat
  line : List Instruction

namespace Entry

def number (address : Nat) : List Char := (Text.zeroFilled 4 address).toList

def marker (marked : Bool) : List Char := if marked then ['►', ' '] else [' ', ' ']

def body (line : List Instruction) : List Char :=
  [' ', ' '].intercalate (line.map fun i => i.text.toList)

def row (e : Entry) : List Char := number e.address ++ ' ' :: (marker e.marked ++ body e.line)

def ruleRow : List Char := Pcode.rule.toList.dropLast

/-- The rows of a line: its own, and the rule above it. -/
def rows (e : Entry) : List (List Char) := (if e.marked then [ruleRow] else []) ++ [e.row]

def text (e : Entry) : List Char := e.rows.flatMap (· ++ ['\n'])

theorem rule_eq : Pcode.rule.toList = ruleRow ++ ['\n'] := by simp [Pcode.rule, ruleRow]

theorem toList_lineText (e : Entry) :
    (Pcode.lineText e.marked e.address e.line).toList = e.text := by
  obtain ⟨marked, address, line⟩ := e
  cases marked with
  | false =>
    simp [Pcode.lineText, text, rows, row, number, marker, body, String.toList_intercalate,
      Function.comp_def]
  | true =>
    simp [Pcode.lineText, text, rows, row, number, marker, body, String.toList_intercalate,
      Function.comp_def, rule_eq]

theorem body_cons (i : Instruction) (line : List Instruction) :
    body (i :: line) = i.text.toList ++ line.flatMap fun j => ' ' :: ' ' :: j.text.toList := by
  induction line generalizing i with
  | nil => simp [body]
  | cons j line ih =>
    have := ih j
    unfold body at this ⊢
    simp only [List.map_cons] at this ⊢
    rw [List.intercalate_cons_cons, this]
    simp

def Closes (r : List Char) : Prop := r.head? = some '\n'

theorem closes_line (r : List Char) : Closes ('\n' :: r) := rfl

theorem Closes.breaks {r : List Char} (h : Closes r) : Instruction.Breaks r := by
  intro c hc
  rw [h] at hc
  exact .inr (Option.some.inj hc).symm

theorem not_closes_body (i : Instruction) (line : List Instruction) (r : List Char) :
    ¬ Closes (body (i :: line) ++ r) := by
  intro h
  obtain ⟨first, more, hfirst, hupper⟩ := i.text_head
  rw [body_cons, hfirst] at h
  obtain rfl : first = '\n' := Option.some.inj h
  exact absurd hupper (by decide)

theorem legible_spaced :
    Legible (fun line : List Instruction => line.flatMap fun j => ' ' :: ' ' :: j.text.toList)
      (fun line => ∀ i ∈ line, i.Spelled) Closes := by
  have one : Legible (fun j : Instruction => ' ' :: ' ' :: j.text.toList) Instruction.Spelled
      Instruction.Breaks := by
    intro i j r s hi hj hr hs h
    exact Instruction.legible_text hi hj hr hs (List.cons.inj (List.cons.inj h).2).2
  exact one.many (by simp [Instruction.Breaks]) (fun _ => Closes.breaks) (by simp [Closes])

theorem breaks_spaced (line : List Instruction) {r : List Char} (hr : Closes r) :
    Instruction.Breaks ((line.flatMap fun j => ' ' :: ' ' :: j.text.toList) ++ r) := by
  cases line with
  | nil => exact hr.breaks
  | cons j line => simp [Instruction.Breaks]

theorem legible_body : Legible body (fun line => ∀ i ∈ line, i.Spelled) Closes := by
  intro l m r s hl hm hr hs h
  cases l with
  | nil =>
    cases m with
    | nil => exact ⟨rfl, h⟩
    | cons j m => exact absurd (h ▸ hr) (not_closes_body j m s)
  | cons i l =>
    cases m with
    | nil => exact absurd (h ▸ hs) (not_closes_body i l r)
    | cons j m =>
      obtain ⟨hi, hl⟩ := List.forall_mem_cons.mp hl
      obtain ⟨hj, hm⟩ := List.forall_mem_cons.mp hm
      rw [body_cons, body_cons, List.append_assoc, List.append_assoc] at h
      obtain ⟨hfirst, hmore⟩ :=
        Instruction.legible_text hi hj (breaks_spaced l hr) (breaks_spaced m hs) h
      obtain ⟨hline, hfollows⟩ := legible_spaced hl hm hr hs hmore
      exact ⟨List.cons_eq_cons.mpr ⟨hfirst, hline⟩, hfollows⟩

/-- An address begins with a digit, which a rule does not. -/
theorem number_head (address : Nat) :
    ∃ first more, number address = first :: more ∧ first ≠ ' ' := by
  cases hnumber : number address with
  | nil =>
    obtain ⟨k, hk⟩ := Text.toList_zeroFilled 4 address
    rw [number, hk] at hnumber
    simp at hnumber
  | cons first more =>
    have hmem : first ∈ (Text.zeroFilled 4 address).toList := by
      rw [← number, hnumber]
      exact List.mem_cons_self
    have hnumeric := Text.isNumeric_zeroFilled hmem
    refine ⟨first, more, rfl, ?_⟩
    rintro rfl
    simp [Text.IsNumeric] at hnumeric

theorem ruleRow_head : ∃ more, ruleRow = ' ' :: more :=
  ⟨ruleRow.tail, by simp [Pcode.rule, ruleRow]⟩

theorem ruleRow_ne_number (address : Nat) (r s : List Char) :
    ruleRow ++ r ≠ number address ++ s := by
  obtain ⟨first, more, hnumber, hfirst⟩ := number_head address
  obtain ⟨rest, hrule⟩ := ruleRow_head
  rw [hnumber, hrule]
  exact fun h => hfirst (List.cons.inj h).1.symm

/-- Addresses are told apart before a space. -/
theorem number_inj {k k' : Nat} {r s : List Char}
    (h : number k ++ ' ' :: r = number k' ++ ' ' :: s) : k = k' ∧ r = s := by
  have free : ∀ r, Legible.Free Text.IsNumeric (' ' :: r) := by
    simp [Legible.Free, Text.IsNumeric]
  obtain ⟨hk, hrest⟩ := Text.legible_zeroFilled 4 trivial trivial (free r) (free s) h
  exact ⟨Int.ofNat_inj.mp hk, (List.cons.inj hrest).2⟩

theorem text_append (e : Entry) (r : List Char) : e.text ++ r =
    (if e.marked then ruleRow ++ ['\n'] else []) ++
      (number e.address ++ ' ' :: (marker e.marked ++ (body e.line ++ '\n' :: r))) := by
  obtain ⟨marked, address, line⟩ := e
  cases marked <;> simp [text, rows, row]

/-- **The text of a line**: it says whether the line is marked, where it is and what is on it. -/
theorem legible_text : Legible text (fun e => ∀ i ∈ e.line, i.Spelled) (fun _ => True) := by
  rintro ⟨marked, address, line⟩ ⟨marked', address', line'⟩ r s he he' _ _ h
  rw [text_append, text_append] at h
  dsimp only at h he he'
  have same : marked = marked' := by
    cases marked <;> cases marked'
    · rfl
    · rw [if_neg Bool.false_ne_true, if_pos rfl, List.nil_append, List.append_assoc] at h
      exact absurd h.symm (ruleRow_ne_number _ _ _)
    · rw [if_neg Bool.false_ne_true, if_pos rfl, List.nil_append, List.append_assoc] at h
      exact absurd h (ruleRow_ne_number _ _ _)
    · rfl
  subst same
  obtain ⟨rfl, hrest⟩ := number_inj (List.append_cancel_left h)
  obtain ⟨rfl, hfollows⟩ :=
    legible_body he he' (closes_line r) (closes_line s) (List.append_cancel_left hrest)
  exact ⟨rfl, (List.cons.inj hfollows).2⟩

theorem text_ne_nil (e : Entry) (r : List Char) : e.text ++ r ≠ [] := by
  simp [text, rows]

/-- **All lines**: they are told by their texts one after another. -/
theorem texts_inj {es es' : List Entry} (hes : ∀ e ∈ es, ∀ i ∈ e.line, i.Spelled)
    (hes' : ∀ e ∈ es', ∀ i ∈ e.line, i.Spelled) (h : es.flatMap text = es'.flatMap text) :
    es = es' := by
  have all : Legible (fun es : List Entry => es.flatMap text)
      (fun es => ∀ e ∈ es, ∀ i ∈ e.line, i.Spelled) (· = []) :=
    legible_text.many (fun _ _ _ => trivial) (fun _ _ => trivial) fun e r _ => e.text_ne_nil r
  exact (all hes hes' rfl rfl (congrArg (· ++ []) h)).1

/-! ## The rows of a listing -/

def Numbered (k : Nat) (row : List Char) : Prop := number k ++ [' '] <+: row

def Arrowed (k : Nat) (row : List Char) : Prop := number k ++ [' ', '►', ' '] <+: row

theorem numbered_row {e : Entry} {k : Nat} : Numbered k e.row ↔ e.address = k := by
  constructor
  · rintro ⟨r, hr⟩
    rw [row, List.append_assoc] at hr
    exact (number_inj hr).1.symm
  · rintro rfl
    exact ⟨marker e.marked ++ body e.line, by simp [row]⟩

theorem arrowed_row {e : Entry} {k : Nat} :
    Arrowed k e.row ↔ e.marked = true ∧ e.address = k := by
  constructor
  · rintro ⟨r, hr⟩
    rw [row, List.append_assoc] at hr
    obtain ⟨hk, hmarker⟩ := number_inj hr
    refine ⟨?_, hk.symm⟩
    by_contra hmarked
    rw [marker, if_neg hmarked] at hmarker
    exact absurd (List.cons.inj hmarker).1 (by decide)
  · rintro ⟨hmarked, rfl⟩
    exact ⟨body e.line, by simp [row, marker, hmarked]⟩

theorem Arrowed.numbered {k : Nat} {row : List Char} (h : Arrowed k row) : Numbered k row := by
  refine List.IsPrefix.trans ⟨['►', ' '], ?_⟩ h
  simp

theorem not_numbered_ruleRow (k : Nat) : ¬ Numbered k ruleRow := by
  rintro ⟨r, hr⟩
  refine ruleRow_ne_number k [] ([' '] ++ r) ?_
  rw [← hr]
  simp

theorem not_numbered_nil (k : Nat) : ¬ Numbered k [] := by
  simp [Numbered]

theorem row_ne_ruleRow (e : Entry) : e.row ≠ ruleRow := fun h =>
  not_numbered_ruleRow e.address (h ▸ numbered_row.mpr rfl)

theorem mem_rows {e : Entry} {row : List Char} :
    row ∈ e.rows ↔ e.marked = true ∧ row = ruleRow ∨ row = e.row := by
  unfold rows
  split
  · next hmarked => simp [hmarked]
  · next hmarked => simp [hmarked]

theorem line_not_mem_rows {e : Entry} {row : List Char} (h : row ∈ e.rows) : '\n' ∉ row := by
  have hnumber : '\n' ∉ number e.address := fun hmem =>
    absurd (Text.isNumeric_zeroFilled hmem) (by simp [Text.IsNumeric])
  have hmarker : '\n' ∉ marker e.marked := by
    unfold marker
    split <;> decide
  have hbody : '\n' ∉ body e.line := by
    cases e.line with
    | nil => simp [body]
    | cons i line => simp [body_cons, Instruction.line_not_mem_text]
  rcases mem_rows.mp h with ⟨-, hrow⟩ | hrow
  · rw [hrow]
    simp [Pcode.rule, ruleRow]
  · rw [hrow]
    simp [Entry.row, hnumber, hmarker, hbody]

theorem not_numbered_of_mem_rows {e : Entry} {k : Nat} {row : List Char} (h : row ∈ e.rows)
    (hk : e.address ≠ k) : ¬ Numbered k row := by
  rcases mem_rows.mp h with ⟨-, hrow⟩ | hrow
  · rw [hrow]
    exact not_numbered_ruleRow k
  · rw [hrow, numbered_row]
    exact hk

/-- The rows of lines, and the nothing that follows the end of the last one. -/
def allRows (es : List Entry) : List (List Char) := es.flatMap rows ++ [[]]

theorem splitOn_texts (es : List Entry) : (es.flatMap text).splitOn '\n' = allRows es := by
  have split : ∀ rows : List (List Char), (∀ row ∈ rows, '\n' ∉ row) →
      (rows.flatMap (· ++ ['\n'])).splitOn '\n' = rows ++ [[]] := by
    intro rows h
    induction rows with
    | nil => rfl
    | cons row rows ih =>
      obtain ⟨hrow, hrows⟩ := List.forall_mem_cons.mp h
      rw [List.flatMap_cons, List.append_assoc, List.singleton_append,
        List.splitOn_append_cons_self_of_not_mem hrow, ih hrows, List.cons_append]
  unfold text allRows
  rw [← List.flatMap_assoc, split]
  intro row hrow
  obtain ⟨e, -, hmem⟩ := List.mem_flatMap.mp hrow
  exact line_not_mem_rows hmem

/-- **Where rules stand**: each is directly above the row of a marked line. -/
theorem rule_above {es : List Entry} {above below : List (List Char)}
    (h : allRows es = above ++ ruleRow :: below) :
    ∃ e ∈ es, e.marked = true ∧ ∃ rest, below = e.row :: rest := by
  have after_row : ∀ {e : Entry} {tail above : List (List Char)},
      e.row :: tail = above ++ ruleRow :: below → ∃ above', tail = above' ++ ruleRow :: below := by
    intro e tail above h
    cases above with
    | nil => exact absurd (List.cons.inj h).1 e.row_ne_ruleRow
    | cons _ above => exact ⟨above, (List.cons.inj h).2⟩
  induction es generalizing above with
  | nil =>
    cases above with
    | nil =>
      obtain ⟨more, hmore⟩ := ruleRow_head
      exact absurd ((List.cons.inj h).1.trans hmore) (by simp)
    | cons _ above => exact absurd (List.cons.inj h).2 (by simp)
  | cons e es ih =>
    have hrows : allRows (e :: es) =
        (if e.marked then [ruleRow] else []) ++ e.row :: allRows es := by
      simp [allRows, rows]
    have hlater : (∃ above', allRows es = above' ++ ruleRow :: below) →
        ∃ e' ∈ e :: es, e'.marked = true ∧ ∃ rest, below = e'.row :: rest := by
      rintro ⟨above', habove⟩
      obtain ⟨e', he', hfound⟩ := ih habove
      exact ⟨e', List.mem_cons_of_mem e he', hfound⟩
    rw [hrows] at h
    by_cases hmarked : e.marked = true
    · rw [if_pos hmarked] at h
      cases above with
      | nil => exact ⟨e, List.mem_cons_self, hmarked, allRows es, (List.cons.inj h).2.symm⟩
      | cons _ above => exact hlater (after_row (List.cons.inj h).2)
    · rw [if_neg hmarked, List.nil_append] at h
      exact hlater (after_row h)

theorem exists_rule {es : List Entry} {e : Entry} (he : e ∈ es) (hmarked : e.marked = true) :
    ∃ above below, allRows es = above ++ ruleRow :: e.row :: below := by
  obtain ⟨before, after, rfl⟩ := List.append_of_mem he
  exact ⟨before.flatMap rows, allRows after, by simp [allRows, rows, hmarked]⟩

/-- Lines at different addresses have one row each. -/
theorem exists_unique_row {es : List Entry} {e : Entry} (he : e ∈ es)
    (hes : (es.map address).Nodup) : ∃ above below, allRows es = above ++ e.row :: below ∧
      ∀ other ∈ above ++ below, ¬ Numbered e.address other := by
  obtain ⟨before, after, rfl⟩ := List.append_of_mem he
  have hothers : ∀ e' ∈ before ++ after, e'.address ≠ e.address := by
    rw [List.map_append, List.map_cons, List.nodup_middle, List.nodup_cons,
      ← List.map_append] at hes
    intro e' he' hsame
    exact hes.1 (List.mem_map.mpr ⟨e', he', hsame⟩)
  refine ⟨before.flatMap rows ++ (if e.marked then [ruleRow] else []), allRows after,
    by simp [allRows, rows], ?_⟩
  have not_numbered : ∀ e' ∈ before ++ after, ∀ row ∈ e'.rows, ¬ Numbered e.address row :=
    fun e' he' row hrow => not_numbered_of_mem_rows hrow (hothers e' he')
  intro other hother
  simp only [allRows, List.mem_append, List.mem_flatMap, List.mem_singleton] at hother
  rcases hother with (⟨e', he', hrow⟩ | hrule) | (⟨e', he', hrow⟩ | rfl)
  · exact not_numbered e' (List.mem_append_left after he') other hrow
  · split at hrule
    · rw [List.mem_singleton.mp hrule]
      exact not_numbered_ruleRow e.address
    · cases hrule
  · exact not_numbered e' (List.mem_append_right before he') other hrow
  · exact not_numbered_nil e.address

theorem exists_arrowed {es : List Entry} {k : Nat} :
    (∃ row ∈ allRows es, Arrowed k row) ↔ ∃ e ∈ es, e.marked = true ∧ e.address = k := by
  constructor
  · rintro ⟨row, hrow, harrow⟩
    rcases List.mem_append.mp hrow with hrow | hrow
    · obtain ⟨e, he, hmem⟩ := List.mem_flatMap.mp hrow
      rcases mem_rows.mp hmem with ⟨-, hrule⟩ | hown
      · exact absurd (hrule ▸ harrow.numbered) (not_numbered_ruleRow k)
      · exact ⟨e, he, arrowed_row.mp (hown ▸ harrow)⟩
    · rw [List.mem_singleton.mp hrow] at harrow
      exact absurd harrow.numbered (not_numbered_nil k)
  · rintro ⟨e, he, hmarked, rfl⟩
    refine ⟨e.row, ?_, arrowed_row.mpr ⟨hmarked, rfl⟩⟩
    exact List.mem_append_left _ (List.mem_flatMap.mpr ⟨e, he, mem_rows.mpr (.inr rfl)⟩)

end Entry

/-! ## Programs -/

namespace Pcode

def Lands (pages : List (List Instruction)) (k : Nat) : Prop :=
  ∃ line ∈ pages, ∃ i ∈ line, (i.op = .jump ∨ i.op = .ifno ∨ i.op = .subr) ∧
    ∃ target, i.operands = [target] ∧ target.toInt = k

theorem target?_eq_some {i : Instruction} (hi : i.WellFormed) {target : Int64} :
    target? i = some target ↔
      (i.op = .jump ∨ i.op = .ifno ∨ i.op = .subr) ∧ i.operands = [target] := by
  rw [← Opcode.takesAddress_iff]
  unfold target?
  by_cases haddress : i.op.takesAddress = true
  · cases hi with
    | string _ => cases haddress
    | @plain op operands _ hcount =>
      obtain ⟨x, rfl⟩ := List.length_eq_one_iff.mp
        (hcount.trans (Opcode.operandCount_of_takesAddress haddress))
      simp [haddress]
  · simp [haddress]

theorem mem_targets {pages : List (List Instruction)} {target : Int64} :
    target ∈ targets pages ↔ ∃ line ∈ pages, ∃ i ∈ line, target? i = some target := by
  simp [targets]

variable {p : Pcode} {pages : List (List Instruction)}

def entries (pages : List (List Instruction)) : List Entry :=
  pages.zipIdx.map fun (line, address) =>
    ⟨(Std.HashSet.ofList (targets pages)).contains (Address.operand address), address, line⟩

theorem map_line_entries (pages : List (List Instruction)) :
    (entries pages).map Entry.line = pages := by
  rw [entries, List.map_map]
  exact List.zipIdx_map_fst 0 pages

theorem map_address_entries (pages : List (List Instruction)) :
    (entries pages).map Entry.address = List.range pages.length := by
  rw [entries, List.map_map]
  exact (List.zipIdx_map_snd 0 pages).trans List.range_eq_range'.symm

theorem mem_entries {e : Entry} : e ∈ entries pages ↔ pages[e.address]? = some e.line ∧
    (e.marked = true ↔ Address.operand e.address ∈ targets pages) := by
  have hcontains : ∀ target : Int64, (Std.HashSet.ofList (targets pages)).contains target = true ↔
      target ∈ targets pages := by simp
  rw [← hcontains, entries, List.mem_map]
  constructor
  · rintro ⟨⟨line, address⟩, hmem, rfl⟩
    exact ⟨List.mem_zipIdx_iff_getElem?.mp hmem, Iff.rfl⟩
  · rintro ⟨hline, hmarked⟩
    refine ⟨(e.line, e.address), List.mem_zipIdx_iff_getElem?.mpr hline, ?_⟩
    rw [← Bool.eq_iff_iff] at hmarked
    dsimp only
    rw [← hmarked]

/-- An operand is the address of a line exactly if it is the number of this line: negative ones are
not, as no line has such a number. -/
theorem operand_mem_targets (hpages : ∀ line ∈ pages, ∀ i ∈ line, i.WellFormed) {k : Nat}
    (hk : k < 9223372036854775808) : Address.operand k ∈ targets pages ↔ Lands pages k := by
  have hoperand : (Address.operand k).toInt = k := Int64.toInt_ofNat_of_lt hk
  rw [mem_targets]
  constructor
  · rintro ⟨line, hline, i, hi, htarget⟩
    obtain ⟨hop, hoperands⟩ := (target?_eq_some (hpages line hline i hi)).mp htarget
    exact ⟨line, hline, i, hi, hop, _, hoperands, hoperand⟩
  · rintro ⟨line, hline, i, hi, hop, target, hoperands, htarget⟩
    obtain rfl : target = Address.operand k := Int64.toInt_inj.mp (htarget.trans hoperand.symm)
    exact ⟨line, hline, i, hi, (target?_eq_some (hpages line hline i hi)).mpr ⟨hop, hoperands⟩⟩

/-- **Marks**: the lines that are marked are those that a jump or a call goes to. -/
theorem marked_iff (hpages : ∀ line ∈ pages, ∀ i ∈ line, i.WellFormed)
    (hsize : pages.length ≤ 9223372036854775808) {k : Nat} :
    (∃ e ∈ entries pages, e.marked = true ∧ e.address = k) ↔ k < pages.length ∧ Lands pages k := by
  constructor
  · rintro ⟨e, he, hmarked, rfl⟩
    obtain ⟨hline, htarget⟩ := mem_entries.mp he
    obtain ⟨hlt, -⟩ := List.getElem?_eq_some_iff.mp hline
    exact ⟨hlt, (operand_mem_targets hpages (by omega)).mp (htarget.mp hmarked)⟩
  · rintro ⟨hlt, hlands⟩
    refine ⟨⟨true, k, pages[k]⟩, mem_entries.mpr ⟨List.getElem?_eq_getElem hlt, ?_⟩, rfl, rfl⟩
    simp [operand_mem_targets hpages (show k < 9223372036854775808 by omega), hlands]

theorem exists_listing (h : p.instructions = .ok pages) :
    ∃ text, p.listing = .ok text ∧ text.toList = (entries pages).flatMap Entry.text := by
  refine ⟨String.join (lineTexts (.ofList (targets pages)) pages.zipIdx), ?_, ?_⟩
  · rw [listing, h]
    rfl
  · rw [String.toList_join, lineTexts, entries, List.flatMap_map, List.flatMap_map]
    refine congrArg (List.flatMap · pages.zipIdx) ?_
    funext ⟨line, address⟩
    exact Entry.toList_lineText ⟨_, address, line⟩

/-- The characters of the string constants are code points. -/
def Textual (pages : List (List Instruction)) : Prop :=
  ∀ line ∈ pages, ∀ i ∈ line, i.op = .lstr → ∀ code ∈ i.operands.tail, Instruction.IsCharacter code

def textRows (text : String) : List (List Char) := text.toList.splitOn '\n'

def Ruled (text : String) (k : Nat) : Prop :=
  ∃ above row below, textRows text = above ++ Entry.ruleRow :: row :: below ∧ Entry.Numbered k row

def HasArrow (text : String) (k : Nat) : Prop := ∃ row ∈ textRows text, Entry.Arrowed k row

theorem spelled_entries (h : p.instructions = .ok pages) (hpages : Textual pages) :
    ∀ e ∈ entries pages, ∀ i ∈ e.line, i.Spelled := by
  intro e he i hi
  have hline : e.line ∈ pages := List.mem_of_getElem? (mem_entries.mp he).1
  exact ⟨(parses_of_decodeFrom h).2 _ hline i hi, hpages _ hline i hi⟩

theorem eq_of_listing {q : Pcode} {pages' : List (List Instruction)}
    (hp : p.instructions = .ok pages) (hq : q.instructions = .ok pages') (hpages : Textual pages)
    (hpages' : Textual pages') (h : p.listing = q.listing) : p = q := by
  obtain ⟨text, htext, hlist⟩ := exists_listing hp
  obtain ⟨text', htext', hlist'⟩ := exists_listing hq
  obtain rfl : text = text' := Except.ok.inj (htext.symm.trans (h.trans htext'))
  have hentries : entries pages = entries pages' :=
    Entry.texts_inj (spelled_entries hp hpages) (spelled_entries hq hpages')
      (hlist.symm.trans hlist')
  have hsame : pages = pages' := by
    rw [← map_line_entries pages, hentries, map_line_entries]
  obtain ⟨lines⟩ := p
  obtain ⟨lines'⟩ := q
  rw [Pcode.mk.injEq]
  calc lines = pages.map (·.flatMap Instruction.values) := (parses_of_decodeFrom hp).1
    _ = pages'.map (·.flatMap Instruction.values) := by rw [hsame]
    _ = lines' := (parses_of_decodeFrom hq).1.symm

theorem ruled_iff {text : String} (htext : textRows text = Entry.allRows (entries pages))
    {k : Nat} : Ruled text k ↔ ∃ e ∈ entries pages, e.marked = true ∧ e.address = k := by
  constructor
  · rintro ⟨above, row, below, hrows, hnumbered⟩
    obtain ⟨e, he, hmarked, rest, hrest⟩ := Entry.rule_above (htext.symm.trans hrows)
    rw [(List.cons.inj hrest).1] at hnumbered
    exact ⟨e, he, hmarked, Entry.numbered_row.mp hnumbered⟩
  · rintro ⟨e, he, hmarked, rfl⟩
    obtain ⟨above, below, hrows⟩ := Entry.exists_rule he hmarked
    exact ⟨above, e.row, below, htext.trans hrows, Entry.numbered_row.mpr rfl⟩

/-- **Listings are faithful.**  Two programs that decode, and whose string constants are made of
code points, are the same if their listings are.  The listing of any program that decodes has one
row for each line of it.  There is a rule above this row, and an arrow in it, exactly if some jump
or call goes to the line: others, be they too large or negative, mark nothing, as every rule stands
above the row of a line.  Operands are signed words, so a program has to be one whose addresses are
such words. -/
theorem listing_faithful :
    (∀ (p q : Pcode) (pages pages' : List (List Instruction)), p.instructions = .ok pages →
      q.instructions = .ok pages' → Textual pages → Textual pages' →
      p.listing = q.listing → p = q) ∧
    ∀ (p : Pcode) (pages : List (List Instruction)), p.instructions = .ok pages →
      p.size ≤ UInt64.size / 2 → ∃ text, p.listing = .ok text ∧
        (∀ k < p.size, ∃ above row below, textRows text = above ++ row :: below ∧
          Entry.Numbered k row ∧ ∀ other ∈ above ++ below, ¬ Entry.Numbered k other) ∧
        (∀ k, Ruled text k ↔ k < p.size ∧ Lands pages k) ∧
        (∀ k, HasArrow text k ↔ k < p.size ∧ Lands pages k) ∧
        ∀ above below, textRows text = above ++ Entry.ruleRow :: below →
          ∃ k < p.size, ∃ row rest, below = row :: rest ∧ Entry.Numbered k row := by
  refine ⟨fun p q pages pages' => eq_of_listing, ?_⟩
  intro p pages hp hsize
  obtain ⟨hlines, hpages⟩ := parses_of_decodeFrom hp
  have hlength : p.size = pages.length := by
    rw [size, hlines, List.length_map]
  obtain ⟨text, htext, hlist⟩ := exists_listing hp
  have hrows : textRows text = Entry.allRows (entries pages) := by
    rw [textRows, hlist, Entry.splitOn_texts]
  rw [hlength] at hsize ⊢
  refine ⟨text, htext, ?_, ?_, ?_, ?_⟩
  · intro k hk
    have haddress : k ∈ (entries pages).map Entry.address := by
      rw [map_address_entries]
      exact List.mem_range.mpr hk
    obtain ⟨e, he, rfl⟩ := List.mem_map.mp haddress
    have hnodup : ((entries pages).map Entry.address).Nodup := by
      rw [map_address_entries]
      exact List.nodup_range
    obtain ⟨above, below, hsplit, hothers⟩ := Entry.exists_unique_row he hnodup
    exact ⟨above, e.row, below, hrows.trans hsplit, Entry.numbered_row.mpr rfl, hothers⟩
  · intro k
    rw [ruled_iff hrows, marked_iff hpages hsize]
  · intro k
    rw [HasArrow, hrows, Entry.exists_arrowed, marked_iff hpages hsize]
  · intro above below hsplit
    obtain ⟨e, he, hmarked, rest, hrest⟩ := Entry.rule_above (hrows.symm.trans hsplit)
    obtain ⟨hlt, -⟩ := (marked_iff hpages hsize).mp ⟨e, he, hmarked, rfl⟩
    exact ⟨e.address, hlt, e.row, rest, hrest, Entry.numbered_row.mpr rfl⟩

/-- Prints the end of a line, again and again.  The jumps after the first one are never reached, and
go to no line. -/
def chatter : Pcode :=
  ⟨[[Opcode.lstr.value, 1, 10, Opcode.prnt.value],
    [Opcode.jump.value, 0, Opcode.jump.value, -3, Opcode.subr.value, 7]]⟩

def chatterPages : List (List Instruction) :=
  [[⟨.lstr, [1, 10]⟩, ⟨.prnt, []⟩], [⟨.jump, [0]⟩, ⟨.jump, [-3]⟩, ⟨.subr, [7]⟩]]

theorem listing_faithful_chatter : chatter.instructions = .ok chatterPages ∧ Textual chatterPages ∧
    (∀ (q : Pcode) (pages : List (List Instruction)), q.instructions = .ok pages → Textual pages →
      chatter.listing = q.listing → chatter = q) ∧
    chatter.size ≤ UInt64.size / 2 ∧
    ∃ text, chatter.listing = .ok text ∧ ∀ k, (Ruled text k ↔ k = 0) ∧
      (HasArrow text k ↔ k = 0) := by
  have hfirst : Parses [Opcode.lstr.value, 1, 10, Opcode.prnt.value]
      [⟨.lstr, [1, 10]⟩, ⟨.prnt, []⟩] := by
    refine ⟨List.forall_mem_cons.mpr ⟨.string (by decide), ?_⟩, rfl⟩
    exact List.forall_mem_singleton.mpr (.plain (by decide) rfl)
  have hsecond : Parses [Opcode.jump.value, 0, Opcode.jump.value, -3, Opcode.subr.value, 7]
      [⟨.jump, [0]⟩, ⟨.jump, [-3]⟩, ⟨.subr, [7]⟩] := by
    refine ⟨?_, rfl⟩
    simp only [List.forall_mem_cons]
    exact ⟨.plain (by decide) rfl, .plain (by decide) rfl, .plain (by decide) rfl, by simp⟩
  have hdecode : chatter.instructions = .ok chatterPages := by
    simp only [instructions, chatter, decodeFrom, decodeLine_eq_ok.mpr hfirst,
      decodeLine_eq_ok.mpr hsecond]
    rfl
  have htextual : Textual chatterPages := by
    have hline : Instruction.IsCharacter 10 := ⟨'\n', rfl⟩
    simp [Textual, chatterPages, hline]
  have hlands : ∀ k, k < chatter.size ∧ Lands chatterPages k ↔ k = 0 := by
    have htargets : (0 : Int64).toInt = 0 ∧ (-3 : Int64).toInt = -3 ∧ (7 : Int64).toInt = 7 := by
      decide
    intro k
    simp only [Lands, chatterPages, List.mem_cons, List.not_mem_nil, or_false, exists_eq_or_imp,
      exists_eq_left, List.cons.injEq, and_true, reduceCtorEq, false_or, true_and, or_true,
      exists_eq_left', false_and, htargets]
    show k < 2 ∧ _ ↔ _
    omega
  have hsize : chatter.size ≤ UInt64.size / 2 := by decide
  obtain ⟨text, htext, -, hruled, harrow, -⟩ :=
    listing_faithful.2 chatter chatterPages hdecode hsize
  refine ⟨hdecode, htextual, ?_, hsize, text, htext, ?_⟩
  · intro q pages hq hpages
    exact listing_faithful.1 chatter q chatterPages pages hdecode hq htextual hpages
  · intro k
    rw [hruled, harrow, hlands]
    exact ⟨Iff.rfl, Iff.rfl⟩

end Pcode

end TurtleCode
