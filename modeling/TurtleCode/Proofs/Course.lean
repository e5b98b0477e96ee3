import TurtleCode.Proofs.Acceptance
import TurtleCode.Proofs.Anatomy
import TurtleCode.Proofs.Machine

/-!
# Keeping to a course

What every line of a linked program has in common, seen from any point of it: control goes along the
line, by jumps only to lines of the same routine, into subroutines only at their start, and out of a
subroutine only by giving the frame back and returning at once.

* `Line.LinksTo`, `link_instructions`: what holds of the instructions on the lines of an assembly
  holds on the lines of the linked program.
* `Course own frame placed k is`: the rest `is` of line `k` keeps to that, `own` being the lines of
  the routine and `frame` the cell of its frame.
* `Ruled`: every line of a program does, and the first line of a subroutine claims the frame.
* `Setting.Layout.ruled`: the linked program of an assembly is ruled.
-/

namespace TurtleCode

/-! ## Linked lines -/

/-- A line that is made of complete phrases whose calls can be resolved, and whose instructions then
have a property. -/
def Line.LinksTo (placements : Placements) (C : List Instruction → Prop) (line : Line) : Prop :=
  ∃ phrases, line = Phrase.text phrases ∧
    (∀ q ∈ phrases, q.Complete ∧ q.Resolvable placements) ∧
    C (phrases.map (Phrase.resolve placements))

namespace Line.LinksTo

variable {placements : Placements} {C C' : List Instruction → Prop} {line : Line}

theorem mono (h : LinksTo placements C line) (hC : ∀ is, C is → C' is) :
    LinksTo placements C' line := by
  obtain ⟨phrases, hline, hq, hc⟩ := h
  exact ⟨phrases, hline, hq, hC _ hc⟩

theorem of_instructions (is : List Instruction) (hi : ∀ i ∈ is, i.Complete) (h : C is) :
    LinksTo placements C (is.flatMap Instruction.words) := by
  refine ⟨is.map .plain, by rw [Phrase.text, List.flatMap_map]; rfl, fun q hq => ?_, ?_⟩
  · obtain ⟨i, hm, rfl⟩ := List.mem_map.mp hq
    exact ⟨hi i hm, trivial⟩
  · rw [List.map_map]
    have : Phrase.resolve placements ∘ Phrase.plain = id := rfl
    rwa [this, List.map_id]

theorem cons {q : Phrase} (hq : q.Complete) (hr : q.Resolvable placements)
    (hC : ∀ is, C is → C' (q.resolve placements :: is)) (h : LinksTo placements C line) :
    LinksTo placements C' (q.words ++ line) := by
  obtain ⟨phrases, rfl, hphrases, hc⟩ := h
  exact ⟨q :: phrases, rfl, List.forall_mem_cons.mpr ⟨⟨hq, hr⟩, hphrases⟩, hC _ hc⟩

end Line.LinksTo

theorem Pcode.instructionsOf_linked {q : Pcode} {placed : Placements} {pages : List (List Phrase)}
    (hout : q.lines = pages.map (linkedLine placed)) {k : Nat} {phrases : List Phrase}
    (hk : pages[k]? = some phrases) {is : List Instruction}
    (hd : decode (linkedLine placed phrases) = .ok is) : q.instructionsOf k = is := by
  have hline : q.lines[k]? = some (linkedLine placed phrases) := by
    rw [hout, List.getElem?_map, hk]
    rfl
  rw [instructionsOf, hline]
  dsimp only
  rw [hd]

/-- What the lines of an assembly hold, the lines of the linked program hold too, if clearing the
heap at the end or before a jump makes no difference. -/
theorem link_instructions {a : Assembly} {C : Nat → List Instruction → Prop}
    (hC : ∀ k (line : Line), a.lines[k]? = some line → line.LinksTo a.placements (C k))
    (hclear : ∀ k before after, C k (before ++ after) → (∀ i ∈ after.head?, i.op = .jump) →
      C k (before ++ ⟨.hclr, []⟩ :: after))
    {p : Pcode} (hp : link a = .ok p) :
    p.size = a.lines.length ∧
      ∀ k < p.size, p.instructionsOf k ≠ [] ∧ C k (p.instructionsOf k) := by
  obtain ⟨pages, hlines, hpages⟩ := Line.exists_pages hC
  have resolvable : ∀ phrases ∈ pages, ∀ q ∈ phrases, q.Resolvable a.placements := by
    intro phrases hm q hq
    obtain ⟨k, hk⟩ := List.mem_iff_getElem?.mp hm
    exact ((hpages k phrases hk).1 q hq).2
  rw [link_text hlines resolvable] at hp
  simp only [Result.bind_eq_ok, Result.pure_eq_ok] at hp
  obtain ⟨_, hcheck, rfl⟩ := hp
  have hsize : (pages.map (linkedLine a.placements)).length = a.lines.length := by
    rw [hlines, List.length_map, List.length_map]
  refine ⟨hsize, fun k hk => ?_⟩
  have hlt : k < pages.length := by simpa [Pcode.size] using hk
  have hpage := List.getElem?_eq_getElem hlt
  obtain ⟨hq, hk⟩ := hpages k _ hpage
  obtain ⟨tidy, ht, hdecode⟩ := decode_linkedLine a.placements fun q hm => (hq q hm).1
  have hline : (pages.map (linkedLine a.placements))[k]? =
      some (linkedLine a.placements pages[k]) := by
    rw [List.getElem?_map, hpage]
    rfl
  have his : Pcode.instructionsOf ⟨pages.map (linkedLine a.placements)⟩ k =
      tidy.map (Phrase.resolve a.placements) := Pcode.instructionsOf_linked rfl hpage hdecode
  rw [his]
  refine ⟨decode_ne_nil hdecode
    (Pcode.ne_nil_of_checkFrom hcheck _ (List.mem_of_getElem? hline)), ?_⟩
  rcases ht with rfl | ⟨before, after, hphrases, rfl, hj⟩
  · exact hk
  · rw [hphrases, List.map_append] at hk
    rw [List.map_append, List.map_cons]
    refine hclear k _ _ hk fun i hi => ?_
    rw [List.head?_map] at hi
    obtain ⟨q, hq, rfl⟩ := Option.map_eq_some_iff.mp hi
    rw [Phrase.resolve_op]
    exact hj q hq

/-! ## Courses -/

def Opcode.neutral : Opcode → Bool
  | .jump | .ifno | .subr | .retn | .halt | .memc | .memr => false
  | _ => true

theorem Opcode.transfers_of_neutral {op : Opcode} (h : op.neutral = true) :
    op.transfers = false := by
  revert h
  cases op <;> decide

/-- The rest of line `k` keeps to the lines of its routine. -/
inductive Course (own : Nat → Prop) (frame : Option Int64) (placed : List Placement) (k : Nat) :
    List Instruction → Prop
  | fall : own (k + 1) → Course own frame placed k []
  | along {i : Instruction} {is : List Instruction} : i.op.neutral = true →
      Course own frame placed k is → Course own frame placed k (i :: is)
  | jump {target : Int64} {is : List Instruction} : own (Address.ofOperand target) →
      Course own frame placed k (⟨.jump, [target]⟩ :: is)
  | branch {target : Int64} {is : List Instruction} : own (Address.ofOperand target) →
      Course own frame placed k is → Course own frame placed k (⟨.ifno, [target]⟩ :: is)
  | call {pl : Placement} {target : Int64} {is : List Instruction} : pl ∈ placed →
      Address.ofOperand target = pl.start → Course own frame placed k is →
      Course own frame placed k (⟨.subr, [target]⟩ :: is)
  | release {cell : Int64} {is : List Instruction} : frame = some cell →
      Course own frame placed k (⟨.memr, [cell]⟩ :: ⟨.retn, []⟩ :: is)
  | halt {is : List Instruction} : Course own frame placed k (⟨.halt, []⟩ :: is)

namespace Course

variable {own : Nat → Prop} {frame : Option Int64} {placed : List Placement} {k : Nat}

theorem clear {before after : List Instruction} (h : Course own frame placed k (before ++ after))
    (hj : ∀ i ∈ after.head?, i.op = .jump) :
    Course own frame placed k (before ++ ⟨.hclr, []⟩ :: after) := by
  induction before with
  | nil => exact .along rfl h
  | cons i before ih =>
    rw [List.cons_append] at h ⊢
    generalize hr : before ++ after = rest at h
    cases h with
    | along hi h => exact .along hi (ih (hr ▸ h))
    | jump ht => exact .jump ht
    | branch ht h => exact .branch ht (ih (hr ▸ h))
    | call hpl ht h => exact .call hpl ht (ih (hr ▸ h))
    | halt => exact .halt
    | release hf =>
      -- nothing can come between the release and the return
      cases before with
      | nil =>
        have := hj ⟨.retn, []⟩ (by rw [List.nil_append] at hr; rw [hr]; rfl)
        cases this
      | cons j before =>
        obtain ⟨rfl, rfl⟩ := List.cons.inj hr
        exact .release hf

end Course

/-! ## Programs that are ruled -/

/-- A line keeps to the course of its routine. -/
inductive Ruled.Line (placed : List Placement) (size k : Nat) (is : List Instruction) : Prop
  | free : Setting.Free placed size k → Course (Setting.Free placed size) none placed k is →
      Line placed size k is
  | entry {pl : Placement} {length : Int64} {more : List Instruction} : pl ∈ placed → k = pl.start →
      is = ⟨.memc, [pl.frame, length]⟩ :: more → Course pl.Own (some pl.frame) placed k more →
      Line placed size k is
  | body {pl : Placement} : pl ∈ placed → pl.Own k → Course pl.Own (some pl.frame) placed k is →
      Line placed size k is

structure Ruled (p : Pcode) (placed : List Placement) : Prop where
  proper : ∀ pl ∈ placed, pl.start < pl.stop ∧ pl.stop < p.size
  unique : ∀ {k : Nat} {pl pl' : Placement}, pl ∈ placed → pl' ∈ placed → pl.Has k → pl'.Has k →
    pl = pl'
  frames : ∀ pl ∈ placed, MemoryMap.frameCell pl.index = .ok pl.frame
  first : Setting.Free placed p.size 0
  filled : ∀ k < p.size, p.instructionsOf k ≠ []
  line : ∀ k < p.size, Ruled.Line placed p.size k (p.instructionsOf k)

namespace Ruled

variable {p : Pcode} {placed : List Placement} {k : Nat}

theorem free (h : Ruled p placed) (hk : Setting.Free placed p.size k) :
    p.instructionsOf k ≠ [] ∧
      Course (Setting.Free placed p.size) none placed k (p.instructionsOf k) := by
  refine ⟨h.filled k hk.1, ?_⟩
  cases h.line k hk.1 with
  | free _ hc => exact hc
  | entry hpl he _ _ =>
    subst he
    exact absurd ⟨Nat.le_refl _, (h.proper _ hpl).1⟩ (hk.2 _ hpl)
  | body hpl hown _ => exact absurd (hown.has) (hk.2 _ hpl)

theorem entry (h : Ruled p placed) {pl : Placement} (hpl : pl ∈ placed) :
    ∃ length more, p.instructionsOf pl.start = ⟨.memc, [pl.frame, length]⟩ :: more ∧
      Course pl.Own (some pl.frame) placed pl.start more := by
  have hproper := h.proper pl hpl
  have hhas : pl.Has pl.start := ⟨Nat.le_refl _, hproper.1⟩
  cases h.line pl.start (by omega) with
  | free hfree _ => exact absurd hhas (hfree.2 pl hpl)
  | @entry pl' length more hpl' he his hc =>
    have hhas' : pl'.Has pl.start := ⟨Nat.le_of_eq he.symm, he ▸ (h.proper pl' hpl').1⟩
    obtain rfl := h.unique hpl hpl' hhas hhas'
    exact ⟨length, more, his, hc⟩
  | @body pl' hpl' hown _ =>
    obtain rfl := h.unique hpl hpl' hhas (hown.has)
    exact absurd hown.1 (Nat.lt_irrefl _)

theorem body (h : Ruled p placed) {pl : Placement} (hpl : pl ∈ placed) (hk : pl.Own k) :
    p.instructionsOf k ≠ [] ∧ Course pl.Own (some pl.frame) placed k (p.instructionsOf k) := by
  have hproper := h.proper pl hpl
  have hhas : pl.Has k := hk.has
  have hlt : k < p.size := Nat.lt_trans hk.2 hproper.2
  refine ⟨h.filled k hlt, ?_⟩
  cases h.line k hlt with
  | free hfree _ => exact absurd hhas (hfree.2 pl hpl)
  | @entry pl' length more hpl' he his hc =>
    have hhas' : pl'.Has k := ⟨Nat.le_of_eq he.symm, he ▸ (h.proper pl' hpl').1⟩
    obtain rfl := h.unique hpl hpl' hhas hhas'
    have := hk.1
    omega
  | @body pl' hpl' hown hc =>
    obtain rfl := h.unique hpl hpl' hhas (hown.has)
    exact hc

end Ruled

theorem Ruled.Line.clear {placed : List Placement} {size k : Nat} {before after : List Instruction}
    (h : Ruled.Line placed size k (before ++ after)) (hj : ∀ i ∈ after.head?, i.op = .jump) :
    Ruled.Line placed size k (before ++ ⟨.hclr, []⟩ :: after) := by
  cases h with
  | free hfree hc => exact .free hfree (hc.clear hj)
  | body hpl hown hc => exact .body hpl hown (hc.clear hj)
  | entry hpl hk his hc =>
    -- the frame is claimed first, and a claim is no jump
    cases before with
    | nil =>
      rw [List.nil_append] at his
      have := hj _ (by rw [his]; rfl)
      cases this
    | cons i before =>
      obtain ⟨rfl, rfl⟩ := List.cons.inj his
      exact .entry hpl hk rfl (hc.clear hj)

/-! ## Code keeps to its course -/

/-- Code whose instructions are neutral and whose calls go to known subroutines. -/
def Setting.Steady (s : Setting) : Line → Prop := Line.Reads (s.Permits Opcode.neutral)

namespace Setting

variable {s : Setting} {S : Site → Prop} {a : Assembly} {placed : List Placement}
  {own : Nat → Prop} {frame : Option Int64} {k : Nat} {code line : Line}

theorem steady_law : CodeLaw s s.Steady :=
  Line.Reads.codeLaw fun op h => by revert h; cases op <;> decide

/-- Steady code in front of a line leaves it on its course. -/
theorem Steady.course (layout : s.Layout S a placed) (hcode : s.Steady code)
    (h : line.LinksTo a.placements (Course own frame placed k)) :
    (code ++ line).LinksTo a.placements (Course own frame placed k) := by
  obtain ⟨front, rfl, hfront⟩ := hcode
  induction front with
  | nil => exact h
  | cons q front ih =>
    obtain ⟨hq, hpermits⟩ := hfront q List.mem_cons_self
    have hrest := ih fun r hr => hfront r (List.mem_cons_of_mem _ hr)
    rw [Phrase.text_cons, List.append_assoc]
    cases q with
    | plain i => exact hrest.cons hq trivial fun _ hc => .along hpermits hc
    | call index =>
      obtain ⟨sub, hs⟩ := hpermits
      obtain ⟨pl, hpl, _, hstart⟩ := layout.start? hs
      have hin := layout.inside pl hpl
      refine hrest.cons hq ⟨pl.start, hstart⟩ fun _ hc => ?_
      rw [Phrase.resolve, hstart, Option.getD_some]
      exact .call hpl (Address.ofOperand_operand (by omega)) hc

theorem Ending.course {n : Nat} (h : Ending own frame k n line) :
    line.LinksTo a.placements (Course own frame placed k) := by
  cases h with
  | fall hnext => exact .of_instructions [] (by simp) (.fall hnext)
  | @jump target ht hlt =>
    refine .of_instructions [⟨.jump, [Address.operand target]⟩]
      (Instruction.complete_singleton (by decide) rfl) (.jump ?_)
    rwa [Address.ofOperand_operand hlt]
  | @branch target ht hlt hnext =>
    refine .of_instructions [⟨.ifno, [Address.operand target]⟩]
      (Instruction.complete_singleton (by decide) rfl) (.branch ?_ (.fall hnext))
    rwa [Address.ofOperand_operand hlt]
  | halt =>
    exact .of_instructions [⟨.halt, []⟩] (Instruction.complete_singleton (by decide) rfl) .halt
  | @release cell hf =>
    refine .of_instructions [⟨.memr, [cell]⟩, ⟨.retn, []⟩] ?_ (.release hf)
    exact List.forall_mem_cons.mpr
      ⟨Instruction.complete_of_length (by decide) rfl,
        Instruction.complete_singleton (by decide) rfl⟩

theorem Regular.course (layout : s.Layout S a placed) (hS : ∀ x, S x → x.Obeys s.Steady)
    (h : s.Regular S own frame k line) :
    line.LinksTo a.placements (Course own frame placed k) := by
  obtain ⟨n, lead, ending, rfl, hlead, hending⟩ := h
  exact Steady.course layout (steady_law.lead hS hlead) hending.course

theorem Layout.rule (layout : s.Layout S a placed) (hS : ∀ x, S x → x.Obeys s.Steady)
    (hk : a.lines[k]? = some line) :
    line.LinksTo a.placements (Ruled.Line placed a.lines.length k) := by
  cases layout.shape hk with
  | free hfree h => exact (h.course layout hS).mono fun _ hc => .free hfree hc
  | body hpl hown h => exact (h.course layout hS).mono fun _ hc => .body hpl hown hc
  | @entry sub pl _ hpl hindex hstart hentry =>
    subst hstart
    have hin := layout.inside pl hpl
    obtain ⟨cell, length, rest, hcell, rfl, hrest⟩ := steady_law.prologue hentry
    have hframe : pl.frame = cell := Placement.frame_eq (hindex ▸ hcell)
    have hfall : Ending pl.Own (some pl.frame) pl.start 0 [] := .fall ⟨Nat.lt_succ_self _, hin.1⟩
    have hcourse := Steady.course layout hrest hfall.course
    rw [List.append_nil] at hcourse
    refine hcourse.cons (q := .plain ⟨.memc, [cell, length]⟩)
      (Instruction.complete_of_length (by decide) rfl) trivial fun more hc => ?_
    rw [← hframe]
    exact .entry hpl rfl rfl hc

/-- **Linked programs are ruled.** -/
theorem Layout.ruled (layout : s.Layout S a placed) (hS : ∀ x, S x → x.Obeys s.Steady)
    {p : Pcode} (hp : link a = .ok p) : Ruled p placed := by
  obtain ⟨hsize, hlines⟩ := link_instructions (fun k line hk => layout.rule hS hk)
    (fun k before after h hj => h.clear hj) hp
  refine ⟨fun pl hpl => ?_, fun hp hq h1 h2 => layout.unique hp hq h1 h2,
    fun pl hpl => ?_, ?_, ?_, ?_⟩
  · have := layout.inside pl hpl
    omega
  · obtain ⟨sub, _, hindex, line, _, hentry⟩ := layout.entry hpl
    obtain ⟨cell, _, _, _, hcell, _⟩ := prologue_ok hentry
    rw [← hindex] at hcell
    rw [Placement.frame_eq hcell, hcell]
  · rw [hsize]
    exact layout.first
  · exact fun k hk => (hlines k hk).1
  · intro k hk
    rw [hsize]
    exact (hlines k hk).2

end Setting

end TurtleCode
