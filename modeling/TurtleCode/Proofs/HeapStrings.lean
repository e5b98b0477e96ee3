import Mathlib.Data.List.Induction
import TurtleCode.Proofs.Course

/-!
# Strings on the heap

A line that makes strings on the heap and calls nothing has one clearing of the heap: before the
jump that ends the line, or at the very end.  So control that goes along the line or jumps from its
end has cleared the heap, but a condition that fails takes control away from the line before that.

* `Pcode.Stay`, `Pcode.Leaves`: control on a line since it came there, and the step that takes it
  away.
* `Cleared`: no string has been made since the heap was cleared.
* `Swept`: the instructions of a line that is cleared, and `Swept.cleared_iff` when control leaves
  it with a clear heap.
* `tidyLine_of_builds`: where exactly the clearing is put.
* `cleared_iff_leaves`: the lines of a generated program.
-/

namespace TurtleCode

/-! ## On a line -/

namespace Pcode

/-- Control has come to the start of line `k` and is still on it; `done` is what was executed since
then, in order. -/
inductive Stay (q : Pcode) (k : Nat) : List Instruction → Control → Prop
  | enter {m : Control} : m.point = ⟨k, 0⟩ → Stay q k [] m
  | on {done : List Instruction} {m m' : Control} {i : Instruction} : Stay q k done m →
      q.at? m.point = some i → q.Step m m' → m'.point = ⟨k, m.point.pos + 1⟩ →
      Stay q k (done ++ [i]) m'

/-- A step by which control leaves line `k`: the instruction `i`, with `done` executed before it. -/
def Leaves (q : Pcode) (k : Nat) (done : List Instruction) (i : Instruction) : Prop :=
  ∃ m m', q.Stay k done m ∧ q.at? m.point = some i ∧ q.Step m m' ∧
    m'.point ≠ ⟨k, m.point.pos + 1⟩

variable {q : Pcode} {k : Nat} {done body tail : List Instruction} {i : Instruction} {m : Control}

theorem Stay.parts (h : q.Stay k done m) :
    m.point = ⟨k, done.length⟩ ∧ ∃ rest, q.instructionsOf k = done ++ rest := by
  induction h with
  | enter hm => exact ⟨hm, q.instructionsOf k, rfl⟩
  | @on done m m' i _ hat _ hpoint ih =>
    obtain ⟨hm, rest, hrest⟩ := ih
    rw [hm] at hat hpoint
    refine ⟨by rw [hpoint, List.length_append]; rfl, rest.tail, ?_⟩
    rw [at?, Pcode.rest, hrest, List.drop_left] at hat
    rw [hrest, List.append_assoc, List.singleton_append, List.cons_head?_tail hat]

theorem Stay.rest_eq (h : q.Stay k done m) (hat : q.at? m.point = some i) :
    ∃ rest, q.instructionsOf k = done ++ i :: rest ∧ q.rest m.point = i :: rest := by
  obtain ⟨hm, rest, hrest⟩ := h.parts
  obtain ⟨more, hmore⟩ := at?_eq_some hat
  rw [hm, Pcode.rest, hrest, List.drop_left] at hmore
  refine ⟨more, by rw [hrest, hmore], ?_⟩
  rw [hm, Pcode.rest, hrest, List.drop_left, hmore]

theorem exists_stay (hbody : ∀ j ∈ body, j.op.transfers = false) (ht : tail ≠ [])
    (hm : m.point = ⟨k, 0⟩) (h : q.instructionsOf k = body ++ tail) : ∃ m', q.Stay k body m' := by
  induction body using List.reverseRecOn generalizing tail with
  | nil => exact ⟨m, .enter hm⟩
  | append_singleton body i ih =>
    rw [List.append_assoc, List.singleton_append] at h
    obtain ⟨m', hstay⟩ := ih (fun j hj => hbody j (List.mem_append_left _ hj))
      (List.cons_ne_nil _ _) h
    obtain ⟨hpoint, _⟩ := hstay.parts
    have hrest : q.rest m'.point = i :: tail := by
      rw [hpoint, Pcode.rest, h, List.drop_left]
    have hat : q.at? m'.point = some i := by rw [at?, hrest]; rfl
    rcases after_cases hrest with ⟨hnil, _⟩ | ⟨_, hafter, _⟩
    · exact absurd hnil ht
    · rw [hpoint] at hafter
      exact ⟨_, hstay.on hat (.along hat (hbody i (by simp))) (by rw [hpoint]; exact hafter)⟩

theorem Leaves.past (h : q.Leaves k done i) (hbody : ∀ j ∈ body, j.op.transfers = false)
    (ht : tail ≠ []) (his : q.instructionsOf k = body ++ tail) :
    ∃ more rest, done = body ++ more ∧ tail = more ++ i :: rest := by
  obtain ⟨m, m', hstay, hat, hstep, hleave⟩ := h
  obtain ⟨rest, hrest, hfrom⟩ := hstay.rest_eq hat
  obtain ⟨hpoint, _⟩ := hstay.parts
  rw [his] at hrest
  rcases List.append_eq_append_iff.mp hrest with ⟨more, hdone, htail⟩ | ⟨more, hdone, htail⟩
  · exact ⟨more, rest, hdone, htail⟩
  -- otherwise the instruction may be one of the body, and then control stays on the line
  · cases more with
    | nil => exact ⟨[], rest, by simpa using hdone.symm, htail.symm⟩
    | cons j more =>
      obtain ⟨rfl, hmore⟩ := List.cons.inj htail
      have hquiet : i.op.transfers = false := hbody i (hdone ▸ by simp)
      have hstays : q.after m.point = ⟨k, m.point.pos + 1⟩ := by
        rcases after_cases hfrom with ⟨hnil, _⟩ | ⟨_, hafter, _⟩
        · rw [hnil] at hmore
          exact absurd (List.append_eq_nil_iff.mp hmore.symm).2 ht
        · rw [hafter, hpoint]
      cases hstep with
      | along _ _ => exact absurd hstays hleave
      | jump hj | holds hj | fails hj | call hj | back hj _ =>
        obtain rfl := Option.some.inj (hat.symm.trans hj)
        cases hquiet

theorem leaves_branch {target : Int64} {last : Instruction} (hlast : last.op.transfers = false)
    (hbody : ∀ j ∈ body, j.op.transfers = false)
    (h : q.instructionsOf k = body ++ [⟨.ifno, [target]⟩, last]) :
    q.Leaves k body ⟨.ifno, [target]⟩ ∧ q.Leaves k (body ++ [⟨.ifno, [target]⟩]) last := by
  obtain ⟨m, hstay⟩ := exists_stay (m := ⟨⟨k, 0⟩, [], []⟩) hbody (List.cons_ne_nil _ _) rfl h
  obtain ⟨hpoint, _⟩ := hstay.parts
  have hrest : q.rest m.point = [⟨.ifno, [target]⟩, last] := by
    rw [hpoint, rest, h, List.drop_left]
  have hat : q.at? m.point = some ⟨.ifno, [target]⟩ := by rw [at?, hrest]; rfl
  refine ⟨⟨m, _, hstay, hat, .fails hat, fun he => ?_⟩, ?_⟩
  · cases congrArg Point.pos he
  · obtain ⟨_, hafter, _⟩ := (after_cases hrest).resolve_left
      fun hnil => List.cons_ne_nil _ _ hnil.1
    rw [hpoint] at hafter
    obtain ⟨m', hstay⟩ : ∃ m', q.Stay k (body ++ [⟨.ifno, [target]⟩]) m' :=
      ⟨_, hstay.on hat (.holds hat) (by rw [hpoint]; exact hafter)⟩
    obtain ⟨hpoint, _⟩ := hstay.parts
    have hrest : q.rest m'.point = [last] := by
      rw [List.append_cons] at h
      rw [hpoint, rest, h, List.drop_left]
    have hat : q.at? m'.point = some last := by rw [at?, hrest]; rfl
    obtain ⟨_, hafter⟩ := (after_cases hrest).resolve_right fun hne => hne.1 rfl
    refine ⟨m', _, hstay, hat, .along hat hlast, fun he => ?_⟩
    cases congrArg Point.pos (hafter.symm.trans he)

end Pcode

/-! ## Clearing -/

/-- The heap has been cleared and no string was made on it since. -/
def Cleared (executed : List Instruction) : Prop :=
  ∃ before after, executed = before ++ ⟨.hclr, []⟩ :: after ∧ ∀ i ∈ after, i.op.buildsString = false

def Opcode.straight (op : Opcode) : Bool := !op.transfers && op != .hclr

theorem Opcode.straight_iff {op : Opcode} :
    op.straight = true ↔ op.transfers = false ∧ op ≠ .hclr := by
  simp [straight]

/-- The instructions of a line on which the heap is cleared. -/
inductive Swept : List Instruction → Prop
  | fall {body : List Instruction} : (∀ i ∈ body, i.op.straight = true) →
      Swept (body ++ [⟨.hclr, []⟩])
  | jump {body : List Instruction} {target : Int64} : (∀ i ∈ body, i.op.straight = true) →
      Swept (body ++ [⟨.hclr, []⟩, ⟨.jump, [target]⟩])
  | branch {body : List Instruction} {target : Int64} : (∀ i ∈ body, i.op.straight = true) →
      Swept (body ++ [⟨.ifno, [target]⟩, ⟨.hclr, []⟩])

theorem not_cleared {executed : List Instruction} (h : ∀ i ∈ executed, i.op ≠ .hclr) :
    ¬ Cleared executed := by
  rintro ⟨before, after, rfl, _⟩
  exact h ⟨.hclr, []⟩ (by simp) rfl

/-- Control leaves with a clear heap, unless by a condition that fails. -/
theorem Swept.cleared_iff {q : Pcode} {k : Nat} (hs : Swept (q.instructionsOf k))
    {done : List Instruction} {i : Instruction} (h : q.Leaves k done i) :
    Cleared (done ++ [i]) ↔ i.op ≠ .ifno := by
  generalize his : q.instructionsOf k = is at hs
  cases hs with
  | @fall body hbody =>
    have hquiet : ∀ j ∈ body, j.op.transfers = false := fun j hj =>
      (Opcode.straight_iff.mp (hbody j hj)).1
    obtain ⟨more, rest, rfl, htail⟩ := h.past hquiet (List.cons_ne_nil _ _) his
    obtain ⟨rfl, rfl, rfl⟩ : more = [] ∧ i = ⟨.hclr, []⟩ ∧ rest = [] := by
      cases more <;> simp_all
    refine iff_of_true ⟨body, [], by simp, by simp⟩ (by decide)
  | @jump body target hbody =>
    have hquiet : ∀ j ∈ body ++ [⟨.hclr, []⟩], j.op.transfers = false := by
      intro j hj
      rcases List.mem_append.mp hj with hj | hj
      · exact (Opcode.straight_iff.mp (hbody j hj)).1
      · obtain rfl := List.mem_singleton.mp hj
        rfl
    rw [List.append_cons] at his
    obtain ⟨more, rest, rfl, htail⟩ := h.past hquiet (List.cons_ne_nil _ _) his
    obtain ⟨rfl, rfl, rfl⟩ : more = [] ∧ i = ⟨.jump, [target]⟩ ∧ rest = [] := by
      cases more <;> simp_all
    refine iff_of_true ⟨body, [⟨.jump, [target]⟩], by simp, ?_⟩ (by simp)
    exact List.forall_mem_singleton.mpr rfl
  | @branch body target hbody =>
    have hquiet : ∀ j ∈ body, j.op.transfers = false := fun j hj =>
      (Opcode.straight_iff.mp (hbody j hj)).1
    obtain ⟨more, rest, rfl, htail⟩ := h.past hquiet (List.cons_ne_nil _ _) his
    cases more with
    | nil =>
      obtain ⟨rfl, _⟩ := List.cons.inj htail
      refine iff_of_false (not_cleared fun j hj => ?_) (by simp)
      rcases List.mem_append.mp hj with hj | hj
      · exact (Opcode.straight_iff.mp (hbody j (by simpa using hj))).2
      · obtain rfl := List.mem_singleton.mp hj
        exact Opcode.noConfusion
    | cons first more =>
      obtain ⟨rfl, rfl, rfl, rfl⟩ :
          first = ⟨.ifno, [target]⟩ ∧ more = [] ∧ i = ⟨.hclr, []⟩ ∧ rest = [] := by
        cases more <;> simp_all
      exact iff_of_true ⟨body ++ [⟨.ifno, [target]⟩], [], by simp, by simp⟩ (by decide)

/-! ## Where the clearing is put -/

/-- On a line that makes strings, calls nothing and does not clear the heap yet, the clearing is put
before the last jump, or at the end if there is no jump. -/
theorem tidyLine_of_builds (placed : Placements) {phrases : List Phrase}
    (hb : ∃ r ∈ phrases, r.op.buildsString = true) (hs : ∀ r ∈ phrases, r.op ≠ .subr)
    (hc : ∀ r ∈ phrases, r.op ≠ .hclr) :
    ∃ before after, phrases = before ++ after ∧ (∀ r ∈ after.head?, r.op = .jump) ∧
      (after = [] → ∀ r ∈ phrases, r.op ≠ .jump) ∧
      tidyLine (Phrase.linkedText placed phrases) =
        Phrase.linkedText placed (before ++ Phrase.clear :: after) := by
  obtain ⟨before, after, rfl, hjump, hcut⟩ := Phrase.exists_cut placed phrases
  have hmem (op : Opcode) :
      .op op ∈ Phrase.linkedText placed before ++ Phrase.linkedText placed after ↔
        ∃ r ∈ before ++ after, r.op = op := by
    rw [← Phrase.linkedText_append, Phrase.op_mem_linkedText]
  have huntidy : Line.Untidy (Phrase.linkedText placed before)
      (Phrase.linkedText placed after) := by
    refine ⟨?_, ?_, ?_⟩
    · obtain ⟨r, hr, hbuilds⟩ := hb
      exact ⟨r.op, (hmem r.op).mpr ⟨r, hr, rfl⟩, hbuilds⟩
    · rw [hmem]
      rintro ⟨r, hr, he⟩
      exact hs r hr he
    · intro hl
      obtain ⟨r, hr, he⟩ := Phrase.op_mem_linkedText.mp (List.mem_of_getLast? hl)
      exact hc r (List.mem_append_left _ hr) he
  refine ⟨before, after, rfl, hjump, ?_, ?_⟩
  · rintro rfl r hr he
    change Line.Cut _ [] at hcut
    cases hcut with
    | ending hnone =>
      rw [List.append_nil] at hr
      exact hnone (Phrase.op_mem_linkedText.mpr ⟨r, hr, he⟩)
  · rw [Phrase.linkedText_append, tidyLine_of_untidy hcut huntidy, Phrase.linkedText_append]
    rfl

/-! ## The lines of an assembly -/

def Phrase.Straight (phrases : List Phrase) : Prop :=
  ∀ r ∈ phrases, r.op ≠ .subr → r.op.straight = true

/-- The phrases of a line and how control leaves it; lines on which no string is made can be left in
any way. -/
inductive Phrase.Exits : List Phrase → Prop
  | fall {body : List Phrase} : Straight body → Exits body
  | jump {body : List Phrase} {target : Int64} : Straight body →
      Exits (body ++ [.plain ⟨.jump, [target]⟩])
  | branch {body : List Phrase} {target : Int64} : Straight body →
      Exits (body ++ [.plain ⟨.ifno, [target]⟩])
  | silent {phrases : List Phrase} : (∀ r ∈ phrases, r.op.buildsString = false) → Exits phrases

theorem Phrase.Straight.resolved {body : List Phrase} (h : Straight body)
    (hs : ∀ r ∈ body, r.op ≠ .subr) (placed : Placements) :
    ∀ i ∈ body.map (resolve placed), i.op.straight = true := by
  intro i hi
  obtain ⟨r, hr, rfl⟩ := List.mem_map.mp hi
  rw [resolve_op]
  exact h r hr (hs r hr)

theorem Phrase.Straight.ne_hclr_jump {body : List Phrase} (h : Straight body)
    (hs : ∀ r ∈ body, r.op ≠ .subr) : ∀ r ∈ body, r.op ≠ .hclr ∧ r.op ≠ .jump := by
  intro r hr
  obtain ⟨htransfers, hclear⟩ := Opcode.straight_iff.mp (h r hr (hs r hr))
  refine ⟨hclear, ?_⟩
  intro he
  rw [he] at htransfers
  cases htransfers

theorem tidyLine_append_clear (placed : Placements) {phrases : List Phrase}
    (hb : ∃ r ∈ phrases, r.op.buildsString = true) (hs : ∀ r ∈ phrases, r.op ≠ .subr)
    (h : ∀ r ∈ phrases, r.op ≠ .hclr ∧ r.op ≠ .jump) :
    Tidied phrases (phrases ++ [Phrase.clear]) ∧
      tidyLine (Phrase.linkedText placed phrases) =
        Phrase.linkedText placed (phrases ++ [Phrase.clear]) := by
  obtain ⟨before, after, rfl, hjump, _, htidy⟩ :=
    tidyLine_of_builds placed hb hs fun r hr => (h r hr).1
  obtain rfl : after = [] := by
    cases after with
    | nil => rfl
    | cons r after => exact absurd (hjump r rfl) (h r (by simp)).2
  rw [List.append_nil] at htidy ⊢
  exact ⟨.inr ⟨before, [], by simp, rfl, hjump⟩, htidy⟩

theorem tidyLine_clear_jump (placed : Placements) {body : List Phrase} {target : Int64}
    (hb : ∃ r ∈ body ++ [.plain ⟨.jump, [target]⟩], r.op.buildsString = true)
    (hs : ∀ r ∈ body ++ [.plain ⟨.jump, [target]⟩], r.op ≠ .subr)
    (h : ∀ r ∈ body, r.op ≠ .hclr ∧ r.op ≠ .jump) :
    Tidied (body ++ [.plain ⟨.jump, [target]⟩])
        (body ++ Phrase.clear :: [.plain ⟨.jump, [target]⟩]) ∧
      tidyLine (Phrase.linkedText placed (body ++ [.plain ⟨.jump, [target]⟩])) =
        Phrase.linkedText placed (body ++ Phrase.clear :: [.plain ⟨.jump, [target]⟩]) := by
  have hclear : ∀ r ∈ body ++ [.plain ⟨.jump, [target]⟩], r.op ≠ .hclr := by
    intro r hr
    rcases List.mem_append.mp hr with hr | hr
    · exact (h r hr).1
    · obtain rfl := List.mem_singleton.mp hr
      exact Opcode.noConfusion
  obtain ⟨before, after, hparts, hjump, hnone, htidy⟩ := tidyLine_of_builds placed hb hs hclear
  obtain ⟨rfl, rfl⟩ : before = body ∧ after = [.plain ⟨.jump, [target]⟩] := by
    cases after with
    | nil => exact absurd rfl (hnone rfl (.plain ⟨.jump, [target]⟩) (by simp))
    | cons r after =>
      have hr : r ∉ body := fun hr => (h r hr).2 (hjump r rfl)
      rcases List.append_eq_append_iff.mp hparts with ⟨more, rfl, hmore⟩ | ⟨more, rfl, hmore⟩
      · cases more with
        | nil => exact ⟨by simp, hmore.symm⟩
        | cons first more => simp at hmore
      · cases more with
        | nil => exact ⟨by simp, hmore⟩
        | cons first more =>
          obtain ⟨rfl, _⟩ := List.cons.inj hmore
          exact absurd (by simp) hr
  exact ⟨.inr ⟨before, _, rfl, rfl, hjump⟩, htidy⟩

/-- A line that control leaves in one of these ways is swept, if strings are made on it and nothing
is called. -/
theorem Phrase.Exits.swept {phrases : List Phrase} (h : Exits phrases) (placed : Placements)
    (hb : ∃ r ∈ phrases, r.op.buildsString = true) (hs : ∀ r ∈ phrases, r.op ≠ .subr) :
    ∃ tidy, Tidied phrases tidy ∧
      tidyLine (linkedText placed phrases) = linkedText placed tidy ∧
      Swept (tidy.map (resolve placed)) := by
  cases h with
  | fall hbody =>
    obtain ⟨htidied, htidy⟩ := tidyLine_append_clear placed hb hs (hbody.ne_hclr_jump hs)
    refine ⟨_, htidied, htidy, ?_⟩
    rw [List.map_append]
    exact .fall (hbody.resolved hs placed)
  | @jump body target hbody =>
    have hcalls : ∀ r ∈ body, r.op ≠ .subr := fun r hr => hs r (List.mem_append_left _ hr)
    obtain ⟨htidied, htidy⟩ := tidyLine_clear_jump placed hb hs (hbody.ne_hclr_jump hcalls)
    refine ⟨_, htidied, htidy, ?_⟩
    rw [List.map_append]
    exact .jump (hbody.resolved hcalls placed)
  | @branch body target hbody =>
    have hcalls : ∀ r ∈ body, r.op ≠ .subr := fun r hr => hs r (List.mem_append_left _ hr)
    have hphrases : ∀ r ∈ body ++ [.plain ⟨.ifno, [target]⟩], r.op ≠ .hclr ∧ r.op ≠ .jump := by
      intro r hr
      rcases List.mem_append.mp hr with hr | hr
      · exact hbody.ne_hclr_jump hcalls r hr
      · obtain rfl := List.mem_singleton.mp hr
        exact ⟨Opcode.noConfusion, Opcode.noConfusion⟩
    obtain ⟨htidied, htidy⟩ := tidyLine_append_clear placed hb hs hphrases
    refine ⟨_, htidied, htidy, ?_⟩
    rw [List.append_assoc, List.map_append]
    exact .branch (hbody.resolved hcalls placed)
  | silent hnone =>
    obtain ⟨r, hr, hbuilds⟩ := hb
    rw [hnone r hr] at hbuilds
    cases hbuilds

namespace Setting

variable {s : Setting} {S : Site → Prop} {code line : Line}

/-- Code that goes along the line and does not clear the heap. -/
def Unswept (s : Setting) : Line → Prop := Line.Reads (s.Permits Opcode.straight)

theorem unswept_law : CodeLaw s s.Unswept :=
  Line.Reads.codeLaw fun op h => by revert h; cases op <;> decide

def Exits (s : Setting) (line : Line) : Prop :=
  ∃ phrases, line = Phrase.text phrases ∧
    (∀ r ∈ phrases, r.Complete ∧ s.Permits (fun _ => true) r) ∧ Phrase.Exits phrases

/-- The line of a return with a value, in a subroutine. -/
def ReturnsOn (s : Setting) (S : Site → Prop) (line : Line) : Prop :=
  ∃ sub ∈ s.map.subroutines, ∃ e : Expression, (∀ x ∈ e.sites, S x) ∧
    s.returnLine (some e) (.subroutine sub) = .ok line

theorem Permits.any {permitted : Opcode → Bool} {r : Phrase} (h : s.Permits permitted r) :
    s.Permits (fun _ => true) r := by
  cases r with
  | plain i => rfl
  | call index => exact h

theorem Permits.permitted {permitted : Opcode → Bool} {r : Phrase} (h : s.Permits permitted r)
    (hr : r.op ≠ .subr) : permitted r.op = true := by
  cases r with
  | plain i => exact h
  | call index => exact absurd rfl hr

theorem Unswept.phrases (h : s.Unswept code) : ∃ body, code = Phrase.text body ∧
    (∀ r ∈ body, r.Complete ∧ s.Permits (fun _ => true) r) ∧ Phrase.Straight body := by
  obtain ⟨body, rfl, hbody⟩ := h
  exact ⟨body, rfl, fun r hr => ⟨(hbody r hr).1, (hbody r hr).2.any⟩,
    fun r hr hne => (hbody r hr).2.permitted hne⟩

theorem Exits.fall (h : s.Unswept code) : s.Exits code := by
  obtain ⟨body, rfl, hbody, hstraight⟩ := h.phrases
  exact ⟨body, rfl, hbody, .fall hstraight⟩

theorem Exits.transfer (h : s.Unswept code) {op : Opcode} (target : Nat) (hop : op ≠ .lstr)
    (hcount : op.operandCount = 1)
    (hexits : ∀ {body}, Phrase.Straight body →
      Phrase.Exits (body ++ [.plain ⟨op, [Address.operand target]⟩])) :
    s.Exits (code ++ instr op [Address.operand target]) := by
  obtain ⟨body, rfl, hbody, hstraight⟩ := h.phrases
  refine ⟨body ++ [.plain ⟨op, [Address.operand target]⟩], ?_, fun r hr => ?_, hexits hstraight⟩
  · rw [Phrase.text_append, Phrase.text_cons, Phrase.text_nil, List.append_nil]
    rfl
  · rcases List.mem_append.mp hr with hr | hr
    · exact hbody r hr
    · obtain rfl := List.mem_singleton.mp hr
      exact ⟨Instruction.complete_of_length hop hcount.symm, rfl⟩

theorem Exits.jump (h : s.Unswept code) (target : Nat) : s.Exits (code ++ jumpTo target) :=
  .transfer h target (by decide) rfl .jump

theorem Exits.branch (h : s.Unswept code) (target : Nat) : s.Exits (code ++ unlessJumpTo target) :=
  .transfer h target (by decide) rfl .branch

def Silent (s : Setting) : Line → Prop := Line.Reads (s.Permits (!·.buildsString))

theorem Exits.silent (h : s.Silent line) : s.Exits line := by
  obtain ⟨phrases, rfl, hphrases⟩ := h
  refine ⟨phrases, rfl, fun r hr => ⟨(hphrases r hr).1, (hphrases r hr).2.any⟩,
    .silent fun r hr => ?_⟩
  by_cases hcall : r.op = .subr
  · rw [hcall]
    rfl
  · simpa using (hphrases r hr).2.permitted hcall

theorem silent_instr {op : Opcode} {operands : List Int64} (hop : op ≠ .lstr)
    (hcount : operands.length = op.operandCount) (h : op.buildsString = false) :
    s.Silent (instr op operands) :=
  Line.Reads.of_instr (Instruction.complete_of_length hop hcount) (by rw [Permits, h]; rfl)

theorem silent_copyResult {sub : Subroutine} (h : s.copyResult sub = .ok code) : s.Silent code := by
  rcases copyResult_ok h with rfl | ⟨id, value, cell, hvalue, _, rfl⟩
  · exact .nil
  · refine .append ?_ (silent_instr (by decide) rfl rfl)
    rcases load_cases hvalue with ⟨_, rfl⟩ | ⟨_, _, rfl⟩ | ⟨_, _, rfl⟩ | ⟨_, rfl⟩ | ⟨_, _, rfl⟩
    · exact silent_instr (by decide) rfl rfl
    · exact silent_instr (by decide) rfl rfl
    · exact silent_instr (by decide) rfl rfl
    · exact .append (silent_instr (by decide) rfl rfl) (silent_instr (by decide) rfl rfl)
    · exact .append (silent_instr (by decide) rfl rfl) (silent_instr (by decide) rfl rfl)

theorem Exits.release {sub : Subroutine} {result : Line} (h : s.copyResult sub = .ok result)
    (cell : Int64) : s.Exits (result ++ (instr .memr [cell] ++ instr .retn [])) :=
  .silent (.append (silent_copyResult h)
    (.append (silent_instr (by decide) rfl rfl) (silent_instr (by decide) rfl rfl)))

theorem Exits.halt : s.Exits (instr .halt []) := .silent (silent_instr (by decide) rfl rfl)

theorem LineOf.exits (hS : ∀ x, S x → x.Obeys s.Unswept) {routine : Routine} {lo hi : Nat}
    (hroutine : ∀ sub, routine = .subroutine sub → sub ∈ s.map.subroutines)
    (h : s.LineOf routine S lo hi line) : s.ReturnsOn S line ∨ s.Exits line := by
  cases h with
  | assign hx h => exact .inr (.fall (unswept_law.assignment (fun x hm => hS x (hx x hm)) h))
  | call hx h => exact .inr (.fall (unswept_law.call' (fun x hm => hS x (hx x hm)) h))
  | @test e _ _ hx h _ =>
    exact .inr (.branch (unswept_law.expression e (fun x hm => hS x (hx x hm)) h) _)
  | skip _ => exact .inr (.jump unswept_law.nil _)
  | change hx h _ => exact .inr (.jump (unswept_law.assignment (fun x hm => hS x (hx x hm)) h) _)
  | @ret value _ hx h =>
    cases routine with
    | program p =>
      cases h
      exact .inr .halt
    | subroutine sub =>
      cases value with
      | some e => exact .inl ⟨sub, hroutine sub rfl, e, hx e rfl, h⟩
      | none =>
        obtain ⟨result, cell, _, rfl, hresult | ⟨e, _, _, he, _⟩⟩ := returnLine_subroutine_ok h
        · exact .inr (.release hresult cell)
        · cases he

theorem Layout.exits {a : Assembly} {placed : List Placement} (layout : s.Layout S a placed)
    (hS : ∀ x, S x → x.Obeys s.Unswept) {k : Nat} (hk : a.lines[k]? = some line) :
    s.ReturnsOn S line ∨ s.Exits line := by
  cases layout.part k line hk with
  | startup hfirst hl _ _ => exact .inr (.fall (unswept_law.startup hfirst line hl).1)
  | skip _ _ _ => exact .inr (.jump unswept_law.nil _)
  | main _ _ _ hline => exact hline.exits hS fun _ he => by cases he
  | halt _ => exact .inr .halt
  | @sub sub _ _ _ hsub _ _ hline =>
    cases hline with
    | entry hentry =>
      obtain ⟨cell, length, rest, _, rfl, hrest⟩ := unswept_law.prologue hentry
      have hclaim : s.Unswept (instr .memc [cell, length]) :=
        Line.Reads.of_instr (Instruction.complete_of_length (by decide) rfl) rfl
      exact .inr (.fall (unswept_law.append hclaim hrest))
    | body _ _ hbody => exact hbody.exits hS fun sub' he => by cases he; exact hsub
    | exit _ hexit =>
      obtain ⟨result, cell, hresult, _, rfl⟩ := epilogue_ok hexit
      exact .inr (.release hresult cell)

theorem legible_law : LineLaw s (Line.Reads (s.Permits fun _ => true)) where
  toCodeLaw := Line.Reads.codeLaw fun _ _ => rfl
  control _ _ hlstr hlen := Line.Reads.of_instr (Instruction.complete_of_length hlstr hlen) rfl

/-- Every line can be read, and is the line of a return or left in one of the ways above. -/
theorem Layout.reads_exits {a : Assembly} {placed : List Placement} (layout : s.Layout S a placed)
    (hS : ∀ x, S x → x.Obeys s.Unswept) {k : Nat} (hk : a.lines[k]? = some line) :
    ∃ phrases, line = Phrase.text phrases ∧
      (∀ r ∈ phrases, r.Complete ∧ s.Permits (fun _ => true) r) ∧
      (s.ReturnsOn S (Phrase.text phrases) ∨ Phrase.Exits phrases) := by
  rcases layout.exits hS hk with hreturn | ⟨phrases, rfl, hphrases, hexits⟩
  · have hlegible (x : Site) (hx : S x) : x.Obeys (Line.Reads (s.Permits fun _ => true)) :=
      ⟨fun routine hr => ((hS x hx).native routine hr).mono fun _ h => h.any,
        fun value hv => ((hS x hx).literal value hv).mono fun _ h => h.any⟩
    obtain ⟨phrases, rfl, hphrases⟩ := layout.law legible_law hlegible hk
    exact ⟨phrases, rfl, hphrases, .inl hreturn⟩
  · exact ⟨phrases, rfl, hphrases, .inr hexits⟩

end Setting

/-! ## Generated programs -/

theorem Tidied.builds {phrases tidy : List Phrase} (h : Tidied phrases tidy) {placed : Placements}
    (hb : ∃ i ∈ tidy.map (Phrase.resolve placed), i.op.buildsString = true) :
    ∃ r ∈ phrases, r.op.buildsString = true := by
  obtain ⟨i, hi, hbuilds⟩ := hb
  obtain ⟨r, hr, rfl⟩ := List.mem_map.mp hi
  rw [Phrase.resolve_op] at hbuilds
  rcases h.mem hr with hr | rfl
  · exact ⟨r, hr, hbuilds⟩
  · cases hbuilds

/-- **When control leaves a line with a clear heap.**  Let native code be made of complete
instructions that neither move control nor clear the heap.  On every line of a generated program
that makes strings and calls nothing, other than the line of a return with a value, control that
leaves the line has cleared the heap after the last string was made there, unless it leaves by a
condition that fails; then it has not. -/
theorem cleared_iff_leaves {p : Program} {options : Options} {a : Assembly} {q : Pcode}
    (ha : (Setting.of p options).assemble = .ok a) (hq : generate p options = .ok q)
    (hn : ∀ routine ∈ p.natives, routine.code.MadeOf Opcode.straight)
    (ht : ∀ t, .string t ∈ p.literals → t.toList.length < UInt64.size / 2)
    {k : Nat} {line : Line} (hk : a.lines[k]? = some line)
    (hreturn : ¬ (Setting.of p options).ReturnsOn (· ∈ p.sites) line)
    (hb : ∃ i ∈ q.instructionsOf k, i.op.buildsString = true)
    (hs : ∀ i ∈ q.instructionsOf k, i.op ≠ .subr) {done : List Instruction} {i : Instruction}
    (hleaves : q.Leaves k done i) : Cleared (done ++ [i]) ↔ i.op ≠ .ifno := by
  obtain ⟨placed, layout⟩ := Program.layout ha
  have hread (k : Nat) (line : Line) (hk : a.lines[k]? = some line) :
      ∃ phrases, line = Phrase.text phrases ∧
        (∀ r ∈ phrases, r.Complete ∧ r.Resolvable a.placements) ∧
        ((Setting.of p options).ReturnsOn (· ∈ p.sites) (Phrase.text phrases) ∨
          Phrase.Exits phrases) := by
    obtain ⟨phrases, htext, hphrases, hexits⟩ :=
      layout.reads_exits (fun _ => Line.Reads.obeys_of_mem_sites rfl rfl hn ht) hk
    exact ⟨phrases, htext, fun r hr => ⟨(hphrases r hr).1, layout.resolvable (hphrases r hr).2⟩,
      hexits⟩
  obtain ⟨pages, hlines, hout, _, hpages⟩ := link_pages hread (link_of_generate ha hq)
  rw [hlines, List.getElem?_map] at hk
  obtain ⟨phrases, hpage, rfl⟩ := Option.map_eq_some_iff.mp hk
  obtain ⟨hphrases, hexits⟩ := hpages k phrases hpage
  have hexits : Phrase.Exits phrases := hexits.resolve_left hreturn
  have hcomplete : ∀ r ∈ phrases, r.Complete := fun r hr => (hphrases r hr).1
  obtain ⟨tidy, htidy, hdecode⟩ := decode_linkedLine a.placements hcomplete
  rw [Pcode.instructionsOf_linked hout hpage hdecode] at hb hs
  have hbuilds := htidy.builds hb
  have hcalls : ∀ r ∈ phrases, r.op ≠ .subr := fun r hr he =>
    hs _ (List.mem_map_of_mem (htidy.subset hr)) ((r.resolve_op _).trans he)
  obtain ⟨swept, hswept, hline, his⟩ := hexits.swept a.placements hbuilds hcalls
  have hdecode := decode_tidied a.placements hcomplete hswept hline
  rw [← Pcode.instructionsOf_linked hout hpage hdecode] at his
  exact his.cleared_iff hleaves

/-! ### A loop that makes a string in its condition -/

/-- Waits until the number 1 is written as it should be. -/
def waiting : Program where
  name := "wait"
  language := .pascal
  declarations := []
  statements := [
    .repeatUntil (.binary .eqal (.cast (.integer 1) .string) (.string "1") .boolean) []]

def waitingTest : List Instruction :=
  [⟨.ldin, [1]⟩, ⟨.itos, []⟩, ⟨.lstr, [1, 49]⟩, ⟨.seql, []⟩]

theorem waiting_generates : ∃ a q line, (Setting.of waiting {}).assemble = .ok a ∧
    generate waiting {} = .ok q ∧ a.lines[1]? = some line ∧
    q.instructionsOf 1 = waitingTest ++ [⟨.ifno, [1]⟩, ⟨.hclr, []⟩] := by
  have runs : ((Setting.of waiting {}).assemble.toOption.bind fun a =>
      (generate waiting {}).toOption.bind fun q => a.lines[1]?.map fun _ => q.instructionsOf 1) =
        some (waitingTest ++ [⟨.ifno, [1]⟩, ⟨.hclr, []⟩]) := by
    decide +kernel
  obtain ⟨a, ha, runs⟩ := Option.bind_eq_some_iff.mp runs
  obtain ⟨q, hq, runs⟩ := Option.bind_eq_some_iff.mp runs
  obtain ⟨line, hline, his⟩ := Option.map_eq_some_iff.mp runs
  exact ⟨a, q, line, Result.of_toOption ha, Result.of_toOption hq, hline, his⟩

/-- When the condition fails, a string that was made for it stays on the heap. -/
theorem waiting_keeps_string : ∃ q, generate waiting {} = .ok q ∧
    (∃ i ∈ q.instructionsOf 1, i.op.buildsString = true) ∧
    (∀ i ∈ q.instructionsOf 1, i.op ≠ .subr) ∧
    q.Leaves 1 waitingTest ⟨.ifno, [1]⟩ ∧ ¬ Cleared (waitingTest ++ [⟨.ifno, [1]⟩]) := by
  obtain ⟨_, q, _, _, hq, _, his⟩ := waiting_generates
  refine ⟨q, hq, ?_, ?_, (Pcode.leaves_branch rfl (by decide) his).1, not_cleared (by decide)⟩
  · rw [his]
    decide
  · rw [his]
    decide

theorem cleared_iff_leaves_waiting : ∃ a q line, (Setting.of waiting {}).assemble = .ok a ∧
    generate waiting {} = .ok q ∧ a.lines[1]? = some line ∧
    ¬ (Setting.of waiting {}).ReturnsOn (· ∈ waiting.sites) line ∧
    q.Leaves 1 waitingTest ⟨.ifno, [1]⟩ ∧ q.Leaves 1 (waitingTest ++ [⟨.ifno, [1]⟩]) ⟨.hclr, []⟩ ∧
    ∀ done i, q.Leaves 1 done i → (Cleared (done ++ [i]) ↔ i.op ≠ .ifno) := by
  obtain ⟨a, q, line, ha, hq, hline, his⟩ := waiting_generates
  have hreturn : ¬ (Setting.of waiting {}).ReturnsOn (· ∈ waiting.sites) line := by
    rintro ⟨sub, hsub, _⟩
    have none : (Setting.of waiting {}).map.subroutines = [] := List.mergeSort_nil
    rw [none] at hsub
    exact List.not_mem_nil hsub
  have hliterals : ∀ t, .string t ∈ waiting.literals → t.toList.length < UInt64.size / 2 := by
    have literals : waiting.literals = [.integer 1, .string "1"] := rfl
    rw [literals]
    intro t ht
    simp only [List.mem_cons, reduceCtorEq, Literal.string.injEq, List.not_mem_nil, or_false,
      false_or] at ht
    subst ht
    decide
  obtain ⟨hfails, hholds⟩ := Pcode.leaves_branch rfl (by decide) his
  refine ⟨a, q, line, ha, hq, hline, hreturn, hfails, hholds, fun done i hleaves => ?_⟩
  exact cleared_iff_leaves ha hq (fun routine hr => absurd hr List.not_mem_nil) hliterals
    hline hreturn (by rw [his]; decide) (by rw [his]; decide) hleaves

end TurtleCode
