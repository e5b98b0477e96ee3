import TurtleCode.Proofs.Acceptance
import TurtleCode.Proofs.Anatomy

/-!
# Where calls land

Linking turns every call placeholder into a call of the line at which its subroutine starts, and
that line claims the frame of this subroutine.  Nothing else about the words of a program changes,
but for a clearing of the heap that may be put into a line.

* `Pcode.passes_of_checkFrom`: what a program that passed the check is like.
* `LandsOn`: a call instruction goes to the subroutine with an index.
* `call_targets`: the calls of the linked program are the placeholders, line by line and in order,
  and each lands on its own subroutine.
-/

namespace TurtleCode

/-! ## Programs that passed the check -/

theorem decodeFrom_eq_ok {lines : List (List Int64)} {pages : List (List Instruction)}
    (h : List.Forall₂ (fun line is => decode line = .ok is) lines pages) (address : Nat) :
    decodeFrom address lines = .ok pages := by
  induction h generalizing address with
  | nil => rfl
  | cons hd _ ih =>
    rw [decodeFrom, decodeLine, hd, ih]
    rfl

theorem Pcode.inRange_of_checkTargets {size address : Nat} {is : List Instruction}
    (h : checkTargets size address is = .ok ()) :
    ∀ i ∈ is, ∀ target, target? i = some target → inRange size target = true := by
  induction is with
  | nil => simp
  | cons j rest ih =>
    rw [checkTargets] at h
    intro i hi target ht
    split at h
    · next t hj =>
      split at h
      · next hr =>
        rcases List.mem_cons.mp hi with rfl | hi
        · obtain rfl := Option.some.inj (hj.symm.trans ht)
          exact hr
        · exact ih h i hi target ht
      · cases h
    · next hj =>
      rcases List.mem_cons.mp hi with rfl | hi
      · rw [hj] at ht
        cases ht
      · exact ih h i hi target ht

theorem Pcode.passes_of_checkFrom {size : Nat} : ∀ {lines : List (List Int64)} {address : Nat},
    checkFrom size address lines = .ok () → ∀ line ∈ lines, ∃ is, decode line = .ok is ∧
      ∀ i ∈ is, ∀ target, target? i = some target → inRange size target = true
  | [], _, _ => by simp
  | [] :: rest, address, h => by cases h
  | (first :: more) :: rest, address, h => by
    have step : checkFrom size address ((first :: more) :: rest) =
        (decodeLine address (first :: more) >>= fun is =>
          checkTargets size address is >>= fun _ => checkFrom size (address + 1) rest) := rfl
    simp only [step, Result.bind_eq_ok] at h
    obtain ⟨is, hd, _, ht, h⟩ := h
    intro line hl
    rcases List.mem_cons.mp hl with rfl | hl
    · refine ⟨is, ?_, inRange_of_checkTargets ht⟩
      unfold decodeLine at hd
      split at hd
      · next js hjs =>
        cases hd
        exact hjs
      · cases hd
    · exact passes_of_checkFrom h line hl

/-! ## Calls in order -/

def Word.linked (placed : Placements) : Word → Int64
  | .op code => code.value
  | .int n => n
  | .call index => Address.operand ((placed.start? index).getD 0)

theorem Phrase.placeholders_text {permitted : Opcode → Bool} (hp : permitted .subr = false)
    {s : Setting} (placed : Placements) : ∀ {phrases : List Phrase},
    (∀ r ∈ phrases, s.Permits permitted r) →
      (phrases.map (Phrase.resolve placed)).filter (·.op = .subr) =
        ((Phrase.text phrases).filterMap Word.call?).map fun index =>
          ⟨.subr, [Address.operand ((placed.start? index).getD 0)]⟩
  | [], _ => rfl
  | r :: rest, h => by
    have ih := placeholders_text hp placed fun t ht => h t (List.mem_cons_of_mem _ ht)
    rw [List.map_cons, Phrase.text_cons, List.filterMap_append, List.map_append, ← ih]
    cases r with
    | call index => rfl
    | plain i =>
      have hne : i.op ≠ .subr := by
        intro he
        have hi : permitted i.op = true := h _ List.mem_cons_self
        rw [he, hp] at hi
        cases hi
      have hnone : (Phrase.words (.plain i)).filterMap Word.call? = [] := by
        simp [Phrase.words, Instruction.words, instr, Word.call?]
      rw [hnone, List.filter_cons_of_neg (by simp [Phrase.resolve, hne])]
      rfl

theorem Phrase.call_mem_of_text {index : UInt64} {phrases : List Phrase}
    (h : index ∈ (text phrases).filterMap Word.call?) : .call index ∈ phrases := by
  obtain ⟨word, hword, hindex⟩ := List.mem_filterMap.mp h
  obtain ⟨r, hr, hmem⟩ := List.mem_flatMap.mp hword
  cases r with
  | plain i =>
    rcases List.mem_cons.mp hmem with rfl | hmem
    · cases hindex
    · obtain ⟨n, _, rfl⟩ := List.mem_map.mp hmem
      cases hindex
  | call j =>
    simp only [words, List.mem_cons, List.not_mem_nil, or_false] at hmem
    rcases hmem with rfl | rfl
    · cases hindex
    · obtain rfl := Option.some.inj hindex
      exact hr

theorem Tidied.filter_calls {phrases tidy : List Phrase} (h : Tidied phrases tidy)
    (placed : Placements) : (tidy.map (Phrase.resolve placed)).filter (·.op = .subr) =
      (phrases.map (Phrase.resolve placed)).filter (·.op = .subr) := by
  rcases h with rfl | ⟨before, after, rfl, rfl, _⟩
  · rfl
  · simp [Phrase.clear, Phrase.resolve]

theorem Phrase.linked_text (placed : Placements) (phrases : List Phrase) :
    (linkedText placed phrases).map Word.value = (text phrases).map (Word.linked placed) := by
  induction phrases with
  | nil => rfl
  | cons r rest ih =>
    rw [linkedText, List.flatMap_cons, List.map_append, ← linkedText, ih, text_cons,
      List.map_append]
    congr 1
    cases r with
    | plain i => simp [resolve, words, Instruction.words, instr, Word.value, Word.linked]
    | call index => rfl

/-- A line and the integers it is linked to: word for word, with one clearing of the heap put in at
most. -/
def Line.LinkedTo (placed : Placements) (line : Line) (out : List Int64) : Prop :=
  out = line.map (Word.linked placed) ∨ ∃ before after, line = before ++ after ∧
    out = before.map (Word.linked placed) ++ Opcode.hclr.value :: after.map (Word.linked placed)

theorem linkedLine_linkedTo (placed : Placements) (phrases : List Phrase) :
    (Phrase.text phrases).LinkedTo placed (linkedLine placed phrases) := by
  obtain ⟨tidy, htidy, hline⟩ := tidyLine_linkedText placed phrases
  rw [linkedLine, hline, Phrase.linked_text]
  rcases htidy with rfl | ⟨before, after, rfl, rfl, _⟩
  · exact .inl rfl
  · refine .inr ⟨Phrase.text before, Phrase.text after, Phrase.text_append _ _, ?_⟩
    rw [Phrase.text_append, Phrase.text_cons, List.map_append, List.map_append]
    rfl

/-! ## Calls land on their subroutines -/

/-- A call instruction goes to the line at which the subroutine of that index starts, and that line
begins by claiming the frame of the subroutine; `pages` are the instructions of the whole
program. -/
def LandsOn (p : Program) (a : Assembly) (pages : List (List Instruction)) (i : Instruction)
    (index : UInt64) : Prop :=
  ∃ sub ∈ p.allSubroutines, sub.index = index ∧
    ∃ start target, a.placements.start? index = some start ∧ i = ⟨.subr, [target]⟩ ∧
      target.toInt = start ∧
      ∃ cell length rest, MemoryMap.frameCell index = .ok cell ∧
        MemoryMap.frameLength sub = .ok length ∧
        pages[start]? = some (⟨.memc, [cell, length]⟩ :: rest)

theorem Address.toInt_operand {n : Nat} (hn : n < UInt64.size) (h : 0 ≤ (operand n).toInt) :
    (operand n).toInt = n := by
  have hmod : (operand n).toInt = (n : Int).bmod Int64.size := Int64.toInt_ofNat'
  have hsize : Int64.size = 18446744073709551616 := rfl
  have husize : UInt64.size = 18446744073709551616 := rfl
  rw [hmod, Int.bmod_def, hsize] at h ⊢
  omega

namespace Setting

variable {s : Setting} {S : Site → Prop} {a : Assembly} {placed : List Placement}

/-- Code in which calls are made by placeholders only. -/
def Placeholding (s : Setting) : Line → Prop := Line.Reads (s.Permits (· ≠ .subr))

theorem placeholding_law : LineLaw s s.Placeholding where
  toCodeLaw := Line.Reads.codeLaw fun op h => by revert h; cases op <;> decide
  control {op operands} _ hsubr hlstr hlen :=
    Line.Reads.of_instr (Instruction.complete_of_length hlstr hlen) (decide_eq_true hsubr)

def Claims (s : Setting) (placed : List Placement) (k : Nat) (phrases : List Phrase) : Prop :=
  ∀ pl ∈ placed, pl.start = k → ∃ sub ∈ s.map.subroutines, sub.index = pl.index ∧
    ∃ cell length more, MemoryMap.frameCell pl.index = .ok cell ∧
      MemoryMap.frameLength sub = .ok length ∧ phrases = .plain ⟨.memc, [cell, length]⟩ :: more

theorem Layout.placeholding (layout : s.Layout S a placed) (hS : ∀ x, S x → x.Obeys s.Placeholding)
    {k : Nat} {line : Line} (hk : a.lines[k]? = some line) :
    ∃ phrases, line = Phrase.text phrases ∧
      (∀ r ∈ phrases, r.Complete ∧ s.Permits (· ≠ .subr) r) ∧ s.Claims placed k phrases := by
  by_cases hstart : ∃ pl ∈ placed, pl.start = k
  · obtain ⟨pl, hpl, rfl⟩ := hstart
    obtain ⟨sub, hsub, hindex, entry, hentry, hprologue⟩ := layout.entry hpl
    obtain rfl := Option.some.inj (hk.symm.trans hentry)
    obtain ⟨cell, length, _, _, hcell, hlength, _, _, hline⟩ := prologue_ok hprologue
    obtain ⟨cell', length', rest, _, rfl, hrest⟩ := placeholding_law.toCodeLaw.prologue hprologue
    obtain ⟨rfl, rfl, _⟩ : cell' = cell ∧ length' = length ∧ _ := by
      simpa [claimFrame, instr] using hline
    obtain ⟨more, rfl, hmore⟩ := hrest
    refine ⟨.plain ⟨.memc, [cell', length']⟩ :: more, rfl,
      List.forall_mem_cons.mpr ⟨⟨?_, rfl⟩, hmore⟩, fun pl' hpl' he => ?_⟩
    · exact Instruction.complete_of_length (by decide) rfl
    · obtain rfl := layout.eq_of_start hpl' hpl he
      exact ⟨sub, hsub, hindex.symm, cell', length', more, hindex ▸ hcell, hlength, rfl⟩
  · obtain ⟨phrases, htext, hphrases⟩ := layout.law placeholding_law hS hk
    exact ⟨phrases, htext, hphrases, fun pl hpl he => absurd ⟨pl, hpl, he⟩ hstart⟩

end Setting

/-- The first instruction of a line stays the first, unless it is a jump. -/
theorem Tidied.head {phrases tidy more : List Phrase} {r : Phrase} (h : Tidied phrases tidy)
    (hr : r.op ≠ .jump) (hp : phrases = r :: more) : ∃ more', tidy = r :: more' := by
  rcases h with rfl | ⟨before, after, hparts, rfl, hjump⟩
  · exact ⟨more, hp⟩
  · cases before with
    | nil =>
      rw [List.nil_append, hp] at hparts
      rw [← hparts] at hjump
      exact absurd (hjump r rfl) hr
    | cons first before =>
      rw [hp] at hparts
      obtain ⟨rfl, _⟩ := List.cons.inj hparts
      exact ⟨before ++ Phrase.clear :: after, rfl⟩

def Decodes (placed : Placements) (phrases : List Phrase) (is : List Instruction) : Prop :=
  decode (linkedLine placed phrases) = .ok is ∧
    ∃ tidy, Tidied phrases tidy ∧ is = tidy.map (Phrase.resolve placed)

theorem exists_decodes (placed : Placements) : ∀ {pages : List (List Phrase)},
    (∀ phrases ∈ pages, ∀ r ∈ phrases, r.Complete) →
      ∃ decoded, List.Forall₂ (Decodes placed) pages decoded
  | [], _ => ⟨[], .nil⟩
  | phrases :: rest, h => by
    obtain ⟨decoded, hrest⟩ := exists_decodes placed fun l hl => h l (List.mem_cons_of_mem _ hl)
    obtain ⟨tidy, htidy, hd⟩ := decode_linkedLine placed (h phrases List.mem_cons_self)
    exact ⟨_ :: decoded, .cons ⟨hd, tidy, htidy, rfl⟩ hrest⟩

theorem Decodes.getElem? {placed : Placements} {pages : List (List Phrase)}
    {decoded : List (List Instruction)} (h : List.Forall₂ (Decodes placed) pages decoded) {k : Nat}
    {phrases : List Phrase} (hk : pages[k]? = some phrases) :
    ∃ is, decoded[k]? = some is ∧ Decodes placed phrases is := by
  induction h generalizing k with
  | nil => cases hk
  | cons hd _ ih =>
    cases k with
    | zero =>
      obtain rfl := Option.some.inj hk
      exact ⟨_, rfl, hd⟩
    | succ k => exact ih hk

theorem Setting.Layout.landsOn {p : Program} {options : Options} {S : Site → Prop} {a : Assembly}
    {placed : List Placement} (layout : (Setting.of p options).Layout S a placed)
    {pages : List (List Phrase)} {decoded : List (List Instruction)}
    (hlines : a.lines = pages.map Phrase.text)
    (hclaims : ∀ (k : Nat) phrases, pages[k]? = some phrases →
      (Setting.of p options).Claims placed k phrases)
    (hdecoded : List.Forall₂ (Decodes a.placements) pages decoded) {index : UInt64}
    {sub : Subroutine} (hs : (Setting.of p options).map.subroutine index = .ok sub)
    (hrange : ∀ start, a.placements.start? index = some start →
      Pcode.inRange pages.length (Address.operand start) = true) :
    LandsOn p a decoded ⟨.subr, [Address.operand ((a.placements.start? index).getD 0)]⟩ index := by
  obtain ⟨pl, hpl, rfl, hstart⟩ := layout.start? hs
  have hin := layout.inside pl hpl
  have hlt : pl.start < pages.length := by
    rw [hlines, List.length_map] at hin
    omega
  have hpage := List.getElem?_eq_getElem hlt
  obtain ⟨sub, hsub, hindex, cell, length, more, hcell, hlength, hphrases⟩ :=
    hclaims pl.start _ hpage pl hpl rfl
  obtain ⟨is, his, _, tidy, htidy, rfl⟩ := Decodes.getElem? hdecoded hpage
  obtain ⟨rest, rfl⟩ := htidy.head (r := .plain ⟨.memc, [cell, length]⟩)
    Opcode.noConfusion hphrases
  have hpositive : 0 ≤ (Address.operand pl.start).toInt :=
    (of_decide_eq_true (hrange pl.start hstart)).1
  refine ⟨sub, hsub, hindex, pl.start, _, hstart, by rw [hstart, Option.getD_some],
    Address.toInt_operand (by omega) hpositive, cell, length,
    rest.map (Phrase.resolve a.placements), hcell, hlength, his⟩

/-- **Every call lands on its own subroutine.**  Let native code be made of complete instructions
that are not calls.  If an assembly is linked, then on every line the calls of the linked program
are, in order, the placeholders of the assembly, each landing on the subroutine that the placeholder
names; and the lines are linked word for word, with one clearing of the heap put in at most. -/
theorem call_targets {p : Program} {options : Options} {a : Assembly} {q : Pcode}
    (ha : (Setting.of p options).assemble = .ok a) (hq : link a = .ok q)
    (hn : ∀ routine ∈ p.natives, routine.code.MadeOf (· ≠ .subr))
    (ht : ∀ t, .string t ∈ p.literals → t.toList.length < UInt64.size / 2) :
    ∃ pages, q.instructions = .ok pages ∧
      List.Forall₂ (fun is line => List.Forall₂ (LandsOn p a pages) (is.filter (·.op = .subr))
        (line.filterMap Word.call?)) pages a.lines ∧
      List.Forall₂ (Line.LinkedTo a.placements) a.lines q.lines := by
  obtain ⟨placed, layout⟩ := Program.layout ha
  have hread (k : Nat) (line : Line) (hk : a.lines[k]? = some line) :
      ∃ phrases, line = Phrase.text phrases ∧
        (∀ r ∈ phrases, r.Complete ∧ r.Resolvable a.placements) ∧
        (∀ r ∈ phrases, (Setting.of p options).Permits (· ≠ .subr) r) ∧
        (Setting.of p options).Claims placed k phrases := by
    obtain ⟨phrases, htext, hphrases, hclaims⟩ :=
      layout.placeholding (fun _ => Line.Reads.obeys_of_mem_sites rfl rfl hn ht) hk
    exact ⟨phrases, htext, fun r hr => ⟨(hphrases r hr).1, layout.resolvable (hphrases r hr).2⟩,
      fun r hr => (hphrases r hr).2, hclaims⟩
  obtain ⟨pages, hlines, hout, hcheck, hpages⟩ := link_pages hread hq
  have hpage (phrases : List Phrase) (hm : phrases ∈ pages) :
      (∀ r ∈ phrases, r.Complete) ∧ ∀ r ∈ phrases,
        (Setting.of p options).Permits (· ≠ .subr) r := by
    obtain ⟨k, hk⟩ := List.mem_iff_getElem?.mp hm
    obtain ⟨hphrases, hpermits, _⟩ := hpages k phrases hk
    exact ⟨fun r hr => (hphrases r hr).1, hpermits⟩
  obtain ⟨decoded, hdecoded⟩ := exists_decodes a.placements fun phrases hm => (hpage phrases hm).1
  refine ⟨decoded, ?_, ?_, ?_⟩
  · refine decodeFrom_eq_ok ?_ 0
    rw [hout, List.forall₂_map_left_iff]
    exact hdecoded.imp fun _ _ h => h.1
  · rw [hlines, List.forall₂_map_right_iff]
    have hboth := (List.forall₂_and_left pages decoded).mpr ⟨fun _ hm => hm, hdecoded⟩
    refine List.Forall₂.flip (hboth.imp fun phrases is ⟨hm, hd, tidy, htidy, his⟩ => ?_)
    obtain ⟨_, hpermits⟩ := hpage phrases hm
    have hcalls := Phrase.placeholders_text rfl a.placements hpermits
    rw [← htidy.filter_calls, ← his] at hcalls
    rw [flip, hcalls, List.forall₂_map_left_iff, List.forall₂_same]
    intro index hi
    obtain ⟨sub, hs⟩ := hpermits _ (Phrase.call_mem_of_text hi)
    refine layout.landsOn hlines (fun k phrases hk => (hpages k phrases hk).2.2) hdecoded hs ?_
    -- the call is one of the instructions whose targets the check of the linked program passed
    intro start hstart
    obtain ⟨js, hjs, hpasses⟩ := Pcode.passes_of_checkFrom hcheck _ (hout ▸ List.mem_map_of_mem hm)
    obtain rfl := Except.ok.inj (hd.symm.trans hjs)
    have hcall := List.mem_map_of_mem (f := fun index =>
      Instruction.mk .subr [Address.operand ((a.placements.start? index).getD 0)]) hi
    rw [← hcalls] at hcall
    have hr := hpasses _ (List.mem_filter.mp hcall).1 (Address.operand start) (by
      rw [hstart]
      rfl)
    rwa [Pcode.size, hout, List.length_map] at hr
  · rw [hlines, hout, List.forall₂_map_left_iff, List.forall₂_map_right_iff, List.forall₂_same]
    exact fun phrases _ => linkedLine_linkedTo a.placements phrases

theorem call_targets_countdown :
    ∃ a q, (Setting.of countdown {}).assemble = .ok a ∧ link a = .ok q ∧
    a.placements.start? 1 = some 2 ∧
    a.lines.flatMap (·.filterMap Word.call?) = [1, 1] ∧
    ∃ pages, q.instructions = .ok pages ∧
      List.Forall₂ (fun is line => List.Forall₂ (LandsOn countdown a pages)
        (is.filter (·.op = .subr)) (line.filterMap Word.call?)) pages a.lines ∧
      List.Forall₂ (Line.LinkedTo a.placements) a.lines q.lines := by
  have links : ((Setting.of countdown {}).assemble.toOption.bind fun a =>
      (link a).toOption.map fun _ =>
        (a.placements.start? 1, a.lines.flatMap (·.filterMap Word.call?))) =
          some (some 2, [1, 1]) := by
    decide +kernel
  obtain ⟨a, ha, links⟩ := Option.bind_eq_some_iff.mp links
  obtain ⟨q, hq, links⟩ := Option.map_eq_some_iff.mp links
  obtain ⟨hstart, hcalls⟩ := Prod.mk.inj links
  have ha := Result.of_toOption ha
  have hq := Result.of_toOption hq
  exact ⟨a, q, ha, hq, hstart, hcalls, call_targets ha hq
    (fun routine hr => (countdown_natives _ rfl routine hr).2) countdown_literals⟩

end TurtleCode
