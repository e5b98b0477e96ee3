import TurtleCode.Proofs.Layout
import TurtleCode.Proofs.Linking

/-!
# Linking accepts what was assembled

An assembled program can always be linked: every line is made of complete instructions, none is
empty, every call finds its subroutine, and every jump goes to a line of the program.

* `Setting.Sound`: the phrases that a program of some size may hold.
* `Setting.Layout.reads`: every line of an assembly is made of such phrases.
* `link_assembly`: linking succeeds, keeps the number of lines, and each line decodes to the opcodes
  that were emitted, with one clearing of the heap put in at most.

Operands are signed, so the addresses of a program and the lengths of its strings have to stay below
half of the unsigned range.
-/

namespace TurtleCode

theorem Pcode.inRange_operand {size n : Nat} (hn : n < size) (hs : size ≤ UInt64.size / 2) :
    inRange size (Address.operand n) = true := by
  have hint : (Address.operand n).toInt = n := Int64.toInt_ofNat_of_lt (Nat.lt_of_lt_of_le hn hs)
  rw [inRange, hint]
  exact decide_eq_true ⟨by omega, by omega⟩

namespace Setting

/-- A phrase whose jump goes to one of `size` lines, or whose call goes to a known subroutine. -/
def Sound (s : Setting) (size : Nat) : Phrase → Prop
  | .plain i => ∀ target, Pcode.target? i = some target → Pcode.inRange size target = true
  | .call index => ∃ sub, s.map.subroutine index = .ok sub

/-- Code that is read without any operand being an address. -/
def Plain (s : Setting) : Line → Prop := Line.Reads (s.Permits fun op => !op.takesAddress)

variable {s : Setting} {S : Site → Prop} {size : Nat}

theorem plain_law : CodeLaw s s.Plain :=
  Line.Reads.codeLaw fun op h => by revert h; cases op <;> decide

theorem Plain.sound {code : Line} (h : s.Plain code) : code.Reads (s.Sound size) := by
  refine Line.Reads.mono h fun q hq => ?_
  cases q with
  | plain i =>
    intro target ht
    rw [Pcode.target?, if_neg (by simpa [Permits] using hq)] at ht
    cases ht
  | call index => exact hq

theorem sound_instr {op : Opcode} {operands : List Int64} (hop : op.takesAddress = false)
    (hne : op ≠ .lstr) (hlen : operands.length = op.operandCount) :
    Line.Reads (s.Sound size) (instr op operands) := by
  refine Line.Reads.of_instr (Instruction.complete_of_length hne hlen) fun target ht => ?_
  rw [Pcode.target?, if_neg (by simp [hop])] at ht
  cases ht

theorem sound_jump {op : Opcode} {target : Nat} (hop : op = .jump ∨ op = .ifno)
    (ht : target < size) (hs : size ≤ UInt64.size / 2) :
    Line.Reads (s.Sound size) (instr op [Address.operand target]) := by
  have range := Pcode.inRange_operand ht hs
  rcases hop with rfl | rfl
  · refine Line.Reads.of_instr (Instruction.complete_of_length (by decide) rfl) fun t h => ?_
    cases h
    exact range
  · refine Line.Reads.of_instr (Instruction.complete_of_length (by decide) rfl) fun t h => ?_
    cases h
    exact range

/-- What the sites of a program have to be like: their code is plain, and native code is not
empty. -/
structure Readable (s : Setting) (x : Site) : Prop where
  obeys : x.Obeys s.Plain
  native_ne_nil : ∀ routine, x.native? = some routine → routine.code ≠ []

theorem call_ne_nil {c : Call} {code : Line} (hx : ∀ x ∈ c.sites, s.Readable x)
    (h : s.call c = .ok code) : code ≠ [] := by
  obtain ⟨flags, values, _, _, rfl⟩ := call_ok h
  refine List.append_ne_nil_of_right_ne_nil _ ?_
  obtain ⟨callee, arguments⟩ := c
  cases callee with
  | native routine => exact (hx _ List.mem_cons_self).native_ne_nil routine rfl
  | subroutine index => exact List.cons_ne_nil _ _

theorem assignment_ne_nil {a : Assignment} {code : Line} (h : s.assignment a = .ok code) :
    code ≠ [] := by
  obtain ⟨value, tail, _, rfl, ht⟩ := assignment_ok h
  refine List.append_ne_nil_of_right_ne_nil _ ?_
  rcases ht with ⟨pointer, _, rfl⟩ | hs | ⟨address, _, _, rfl⟩ | ⟨address, _, _, rfl⟩
  · exact List.append_ne_nil_of_right_ne_nil _ (List.cons_ne_nil _ _)
  · rcases store_cases hs with ⟨_, rfl⟩ | ⟨_, _, rfl⟩ | ⟨_, _, rfl⟩ | ⟨_, rfl⟩ | ⟨_, _, rfl⟩
    all_goals exact List.cons_ne_nil _ _
  · exact List.append_ne_nil_of_right_ne_nil _ (List.cons_ne_nil _ _)
  · exact List.append_ne_nil_of_right_ne_nil _ (List.cons_ne_nil _ _)

theorem released_reads {result : Line} (pointer : Int64) (h : s.Plain result) :
    Line.Reads (s.Sound size) (result ++ (instr .memr [pointer] ++ instr .retn [])) ∧
      result ++ (instr .memr [pointer] ++ instr .retn []) ≠ [] :=
  ⟨h.sound.append ((sound_instr rfl (by decide) rfl).append (sound_instr rfl (by decide) rfl)),
    List.append_ne_nil_of_right_ne_nil _ (List.cons_ne_nil _ _)⟩

theorem returnLine_reads {value : Option Expression} {routine : Routine} {line : Line}
    (hx : ∀ e, value = some e → ∀ x ∈ e.sites, s.Readable x)
    (h : s.returnLine value routine = .ok line) : line.Reads (s.Sound size) ∧ line ≠ [] := by
  cases routine with
  | program p =>
    cases h
    exact ⟨sound_instr rfl (by decide) rfl, List.cons_ne_nil _ _⟩
  | subroutine sub =>
    obtain ⟨result, pointer, _, rfl, hr⟩ := returnLine_subroutine_ok h
    refine released_reads pointer ?_
    rcases hr with hr | ⟨e, first, cell, he, hf, _, rfl⟩
    · exact plain_law.copyResult hr
    · exact plain_law.append (plain_law.expression e (fun x hm => (hx e he x hm).obeys) hf)
        (plain_law.ordinary rfl rfl)

theorem LineOf.reads {routine : Routine} {lo hi : Nat} {line : Line}
    (h : s.LineOf routine S lo hi line) (hS : ∀ x, S x → s.Readable x) (hhi : hi < size)
    (hs : size ≤ UInt64.size / 2) : line.Reads (s.Sound size) ∧ line ≠ [] := by
  cases h with
  | assign hx h =>
    exact ⟨(plain_law.assignment (fun x hm => (hS x (hx x hm)).obeys) h).sound,
      assignment_ne_nil h⟩
  | call hx h =>
    exact ⟨(plain_law.call' (fun x hm => (hS x (hx x hm)).obeys) h).sound,
      call_ne_nil (fun x hm => hS x (hx x hm)) h⟩
  | @test e _ _ hx h ht =>
    exact ⟨(plain_law.expression e (fun x hm => (hS x (hx x hm)).obeys) h).sound.append
      (sound_jump (.inr rfl) (Nat.lt_of_le_of_lt ht.ge hhi) hs),
      List.append_ne_nil_of_right_ne_nil _ (List.cons_ne_nil _ _)⟩
  | skip ht =>
    exact ⟨sound_jump (.inl rfl) (Nat.lt_of_le_of_lt ht.ge hhi) hs, List.cons_ne_nil _ _⟩
  | change hx h ht =>
    exact ⟨(plain_law.assignment (fun x hm => (hS x (hx x hm)).obeys) h).sound.append
      (sound_jump (.inl rfl) (Nat.lt_of_le_of_lt ht.ge hhi) hs),
      List.append_ne_nil_of_right_ne_nil _ (List.cons_ne_nil _ _)⟩
  | ret hx h => exact returnLine_reads (fun e he x hm => hS x (hx e he x hm)) h

theorem Layout.reads {a : Assembly} {placed : List Placement} (h : s.Layout S a placed)
    (hS : ∀ x, S x → s.Readable x) (hs : a.lines.length ≤ UInt64.size / 2) {k : Nat} {line : Line}
    (hk : a.lines[k]? = some line) : line.Reads (s.Sound a.lines.length) ∧ line ≠ [] := by
  cases h.part k line hk with
  | startup hfirst hl _ _ =>
    have := plain_law.startup hfirst line hl
    exact ⟨this.1.sound, this.2⟩
  | skip _ _ hfree => exact ⟨sound_jump (.inl rfl) hfree.1 hs, List.cons_ne_nil _ _⟩
  | @main lo hi _ _ h1 h2 hfree hline =>
    exact hline.reads hS (hfree hi (by omega) (Nat.le_refl hi)).1 hs
  | halt _ => exact ⟨sound_instr rfl (by decide) rfl, List.cons_ne_nil _ _⟩
  | @sub sub pl _ _ _ hpl _ hline =>
    have hin := h.inside pl hpl
    cases hline with
    | entry hentry =>
      obtain ⟨pointer, length, rest, _, rfl, hrest⟩ := plain_law.prologue hentry
      exact ⟨(sound_instr rfl (by decide) rfl).append (Plain.sound hrest), List.cons_ne_nil _ _⟩
    | body _ _ hbody => exact hbody.reads hS (by omega) hs
    | exit _ hexit =>
      obtain ⟨result, pointer, hr, _, rfl⟩ := epilogue_ok hexit
      exact released_reads pointer (plain_law.copyResult hr)

end Setting

/-! ## The check passes -/

theorem Setting.Layout.resolvable {s : Setting} {S : Site → Prop} {a : Assembly}
    {placed : List Placement} (layout : s.Layout S a placed) {permitted : Opcode → Bool}
    {r : Phrase} (h : s.Permits permitted r) : r.Resolvable a.placements := by
  cases r with
  | plain i => trivial
  | call index =>
    obtain ⟨sub, hs⟩ := h
    obtain ⟨pl, _, _, hstart⟩ := layout.start? hs
    exact ⟨pl.start, hstart⟩

theorem Phrase.resolvable_of_sound {s : Setting} {S : Site → Prop} {a : Assembly}
    {placed : List Placement} (layout : s.Layout S a placed) {size : Nat} {q : Phrase}
    (h : s.Sound size q) : q.Resolvable a.placements := by
  cases q with
  | plain i => trivial
  | call index =>
    obtain ⟨sub, hs⟩ := h
    obtain ⟨pl, _, _, hstart⟩ := layout.start? hs
    exact ⟨pl.start, hstart⟩

theorem Phrase.target_inRange {s : Setting} {S : Site → Prop} {a : Assembly}
    {placed : List Placement} (layout : s.Layout S a placed)
    (hs : a.lines.length ≤ UInt64.size / 2) {q : Phrase} (h : s.Sound a.lines.length q)
    {target : Int64} (ht : Pcode.target? (q.resolve a.placements) = some target) :
    Pcode.inRange a.lines.length target = true := by
  cases q with
  | plain i => exact h target ht
  | call index =>
    obtain ⟨sub, hsub⟩ := h
    obtain ⟨pl, hpl, _, hstart⟩ := layout.start? hsub
    have hin := layout.inside pl hpl
    rw [Phrase.resolve, hstart, Option.getD_some] at ht
    obtain rfl := Option.some.inj ht
    exact Pcode.inRange_operand (by omega) hs

theorem linkedLine_passes {s : Setting} {S : Site → Prop} {a : Assembly}
    {placed : List Placement} (layout : s.Layout S a placed)
    (hs : a.lines.length ≤ UInt64.size / 2) {phrases : List Phrase} (hne : phrases ≠ [])
    (h : ∀ q ∈ phrases, q.Complete ∧ s.Sound a.lines.length q) :
    linkedLine a.placements phrases ≠ [] ∧
      ∃ is, decode (linkedLine a.placements phrases) = .ok is ∧
        ∀ i ∈ is, ∀ target, Pcode.target? i = some target →
          Pcode.inRange a.lines.length target = true := by
  obtain ⟨tidy, htidy, hdecode⟩ := decode_linkedLine a.placements fun q hq => (h q hq).1
  refine ⟨fun hempty => ?_, _, hdecode, fun i hi target ht => ?_⟩
  · rw [hempty, decode] at hdecode
    exact htidy.ne_nil hne (List.map_eq_nil_iff.mp (Except.ok.inj hdecode).symm)
  · obtain ⟨q, hq, rfl⟩ := List.mem_map.mp hi
    rcases htidy.mem hq with hq | rfl
    · exact Phrase.target_inRange layout hs (h q hq).2 ht
    · cases ht

/-- Cleaning the heap keeps the opcodes in order and puts in one at most. -/
theorem Tidied.opcodes {phrases tidy : List Phrase} (h : Tidied phrases tidy) :
    tidy.map Phrase.op = phrases.map Phrase.op ∨
      ∃ before after, phrases.map Phrase.op = before ++ after ∧
        tidy.map Phrase.op = before ++ .hclr :: after := by
  rcases h with rfl | ⟨before, after, rfl, rfl, _⟩
  · exact .inl rfl
  · exact .inr ⟨before.map Phrase.op, after.map Phrase.op, List.map_append, by simp [Phrase.clear,
      Phrase.op]⟩

theorem Setting.readable_of_sites {p : Program} (s : Setting)
    (hn : ∀ routine ∈ p.natives, routine.code ≠ [] ∧ routine.code.MadeOf fun op => !op.takesAddress)
    (ht : ∀ t, .string t ∈ p.literals → t.toList.length < UInt64.size / 2)
    {x : Site} (hx : x ∈ p.sites) : s.Readable x := by
  refine ⟨Line.Reads.obeys_of_mem_sites rfl rfl (fun routine hr => (hn routine hr).2) ht hx, ?_⟩
  intro routine hr
  exact (hn routine (List.mem_filterMap.mpr ⟨x, hx, hr⟩)).1

/-- **Linking accepts what was assembled.**  If native code is never empty and made of complete
instructions without addresses, then the assembly of a program can be linked.  The linked program
has as many lines, and each decodes to the opcodes emitted, in order, with at most one clearing of
the heap put in. -/
theorem link_assembly {p : Program} {options : Options} {a : Assembly}
    (h : (Setting.of p options).assemble = .ok a)
    (hn : ∀ routine ∈ p.natives, routine.code ≠ [] ∧ routine.code.MadeOf fun op => !op.takesAddress)
    (ht : ∀ t, .string t ∈ p.literals → t.toList.length < UInt64.size / 2)
    (hs : a.lines.length ≤ UInt64.size / 2) :
    ∃ q, link a = .ok q ∧ q.size = a.lines.length ∧
      ∀ k line, a.lines[k]? = some line →
        ∃ out is, q.lines[k]? = some out ∧ decodeLine k out = .ok is ∧
          (is.map (·.op) = line.opcodes ∨
            ∃ before after, line.opcodes = before ++ after ∧
              is.map (·.op) = before ++ .hclr :: after) := by
  obtain ⟨placed, layout⟩ := Program.layout h
  have reading (k : Nat) (line : Line) (hk : a.lines[k]? = some line) :
      ∃ phrases, line = Phrase.text phrases ∧ (phrases ≠ [] ∧
        ∀ q ∈ phrases, q.Complete ∧ (Setting.of p options).Sound a.lines.length q) := by
    obtain ⟨⟨phrases, rfl, hq⟩, hne⟩ :=
      layout.reads (fun x hx => Setting.readable_of_sites _ hn ht hx) hs hk
    refine ⟨phrases, rfl, ?_, hq⟩
    rintro rfl
    exact hne rfl
  obtain ⟨pages, hlines, hpages⟩ := Line.exists_pages reading
  have page {phrases : List Phrase} (hm : phrases ∈ pages) : phrases ≠ [] ∧
      ∀ q ∈ phrases, q.Complete ∧ (Setting.of p options).Sound a.lines.length q := by
    obtain ⟨k, hk⟩ := List.mem_iff_getElem?.mp hm
    exact hpages k phrases hk
  have hsize : (pages.map (linkedLine a.placements)).length = a.lines.length := by
    rw [hlines, List.length_map, List.length_map]
  refine ⟨⟨pages.map (linkedLine a.placements)⟩, ?_, hsize, ?_⟩
  · rw [link_text hlines fun phrases hm q hq =>
      Phrase.resolvable_of_sound layout ((page hm).2 q hq).2]
    have passes : Pcode.check ⟨pages.map (linkedLine a.placements)⟩ = .ok () := by
      refine Pcode.checkFrom_ok fun line hl => ?_
      obtain ⟨phrases, hm, rfl⟩ := List.mem_map.mp hl
      rw [Pcode.size, hsize]
      exact linkedLine_passes layout hs (page hm).1 (page hm).2
    rw [passes]
    rfl
  · intro k line hk
    rw [hlines, List.getElem?_map] at hk
    obtain ⟨phrases, hp, rfl⟩ := Option.map_eq_some_iff.mp hk
    obtain ⟨tidy, htidy, hdecode⟩ :=
      decode_linkedLine a.placements fun q hq => ((hpages k phrases hp).2 q hq).1
    refine ⟨linkedLine a.placements phrases, _, by rw [List.getElem?_map, hp]; rfl,
      by rw [decodeLine, hdecode], ?_⟩
    have hops : (tidy.map (Phrase.resolve a.placements)).map (·.op) = tidy.map Phrase.op := by
      rw [List.map_map]
      exact List.map_congr_left fun q _ => Phrase.resolve_op a.placements q
    rw [hops, Phrase.opcodes_text]
    exact htidy.opcodes

/-! ### A program with a recursive function -/

/-- Counts down from a global, with the help of a function that calls itself. -/
def countdown : Program where
  name := "countdown"
  language := .pascal
  declarations := [{ name := "n", ty := .integer }]
  subroutines := [{
    index := 1
    name := "before"
    returns := some .integer
    declarations := [{ name := "k", ty := .integer, parameter := true }]
    statements := [
      .ifElse (.binary .more (.var ⟨1, 0⟩ [] .integer) (.integer 9) .boolean)
        [.ret (some (.binary .subt (.var ⟨1, 0⟩ [] .integer) (.call (.subroutine 1)
          [.binary .subt (.var ⟨1, 0⟩ [] .integer) (.integer 1) .integer] .integer) .integer))] [],
      .ret (some (.binary .subt (.var ⟨1, 0⟩ [] .integer) (.integer 1) .integer))] }]
  statements := [
    .whileDo (.binary .more (.var ⟨0, 0⟩ [] .integer) (.integer 0) .boolean)
      [.call ⟨.native ⟨"print", [false], none, instr .prnt []⟩,
          [.binary .plus (.string "at ") (.cast (.var ⟨0, 0⟩ [] .integer) .string) .string]⟩,
        .assign ⟨⟨0, 0⟩, [], .call (.subroutine 1) [.var ⟨0, 0⟩ [] .integer] .integer⟩]]

theorem countdown_natives (permitted : Opcode → Bool) (h : permitted .prnt = true) :
    ∀ routine ∈ countdown.natives, routine.code ≠ [] ∧ routine.code.MadeOf permitted := by
  have natives : countdown.natives = [⟨"print", [false], none, instr .prnt []⟩] := rfl
  rw [natives]
  intro routine hr
  obtain rfl := List.mem_singleton.mp hr
  refine ⟨List.cons_ne_nil _ _, [⟨.prnt, []⟩], rfl, fun i hi => ?_⟩
  obtain rfl := List.mem_singleton.mp hi
  exact ⟨rfl, h⟩

theorem countdown_literals :
    ∀ t, .string t ∈ countdown.literals → t.toList.length < UInt64.size / 2 := by
  have literals : countdown.literals =
      [.integer 0, .string "at ", .integer 9, .integer 1, .integer 1] := rfl
  rw [literals]
  intro t ht
  simp only [List.mem_cons, reduceCtorEq, Literal.string.injEq, List.not_mem_nil, or_false,
    false_or] at ht
  subst ht
  decide

theorem countdown_assembles :
    ((Setting.of countdown {}).assemble.toOption.map (·.lines.length)) = some 12 := by
  decide +kernel

theorem link_assembly_countdown : ∃ a, (Setting.of countdown {}).assemble = .ok a ∧
    a.lines.length = 12 ∧ ∃ q, link a = .ok q ∧ q.size = a.lines.length ∧
      ∀ k line, a.lines[k]? = some line →
        ∃ out is, q.lines[k]? = some out ∧ decodeLine k out = .ok is ∧
          (is.map (·.op) = line.opcodes ∨
            ∃ before after, line.opcodes = before ++ after ∧
              is.map (·.op) = before ++ .hclr :: after) := by
  have assembles := countdown_assembles
  cases h : (Setting.of countdown {}).assemble with
  | error fault =>
    rw [h] at assembles
    cases assembles
  | ok a =>
    rw [h] at assembles
    have size : a.lines.length = 12 := Option.some.inj assembles
    exact ⟨a, rfl, size, link_assembly h (countdown_natives _ rfl) countdown_literals
      (by rw [size]; decide)⟩

end TurtleCode
