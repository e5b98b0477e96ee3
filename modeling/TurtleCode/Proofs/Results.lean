import TurtleCode.Proofs.Execution
import TurtleCode.Proofs.Extents
import TurtleCode.Proofs.Integrity

/-!
# The results of functions

All functions of a program hand back their values through one cell.  A function stores its value
there as the last thing before it gives its frame back and returns, and the expression that called
it loads the cell as the first thing after.  So no store can come between, however the calls are
nested.

* `Fetched`: calls in an expression are followed by a load of the result cell.
* `Setting.Delivers`: a line at which a function ends, and the code that computes its value there.
* `Setting.Finish`: what the lines of an assembly are, as far as calls and returns go.
* `Kept`: a value is the top of the stack again after the function has returned.
* `result_kept`: the value that a function computes is the value that its caller gets.
-/

namespace TurtleCode

/-! ## Calls in expressions -/

inductive Fetched (cell : Int64) : List Phrase → Prop
  | nil : Fetched cell []
  | plain {i : Instruction} {rest : List Phrase} : Fetched cell rest →
      Fetched cell (.plain i :: rest)
  | call {index : UInt64} {rest : List Phrase} : Fetched cell rest →
      Fetched cell (.call index :: .plain ⟨.ldvg, [cell]⟩ :: rest)

namespace Fetched

variable {cell : Int64} {phrases front : List Phrase}

theorem append (h : Fetched cell front) (hp : Fetched cell phrases) :
    Fetched cell (front ++ phrases) := by
  induction h with
  | nil => exact hp
  | plain _ ih => exact .plain ih
  | call _ ih => exact .call ih

theorem instructions (is : List Instruction) : Fetched cell (is.map .plain) := by
  induction is with
  | nil => exact .nil
  | cons i rest ih => exact .plain ih

theorem next {index : UInt64} {after : List Phrase}
    (h : Fetched cell (front ++ .call index :: after)) :
    ∃ more, after = .plain ⟨.ldvg, [cell]⟩ :: more := by
  generalize hl : front ++ .call index :: after = l at h
  induction h generalizing front with
  | nil => simp at hl
  | plain _ ih =>
    cases front with
    | nil => cases hl
    | cons r front => exact ih (List.cons.inj hl).2
  | @call _ rest _ ih =>
    match front with
    | [] =>
      cases hl
      exact ⟨rest, rfl⟩
    | [_] => cases hl
    | _ :: _ :: front => exact ih (List.cons.inj (List.cons.inj hl).2).2

end Fetched

mutual

theorem Expression.node_of_sites : ∀ (e : Expression), ∀ x ∈ e.sites, ∃ f, x = .node f
  | .literal _ _ | .input _ _ _ | .constant _ _ _ | .colour _ _ _ | .address _ _ => by
    simp [Expression.sites]
  | .var id indexes ty => by
    rw [Expression.sites]
    exact List.forall_mem_cons.mpr ⟨⟨_, rfl⟩, Expression.node_of_allSites indexes⟩
  | .call callee arguments ty => by
    rw [Expression.sites]
    exact List.forall_mem_cons.mpr ⟨⟨_, rfl⟩, Expression.node_of_allSites arguments⟩
  | .unary operator operand ty => by
    rw [Expression.sites]
    exact List.forall_mem_cons.mpr ⟨⟨_, rfl⟩, Expression.node_of_sites operand⟩
  | .binary operator left right ty => by
    rw [Expression.sites]
    refine List.forall_mem_cons.mpr ⟨⟨_, rfl⟩, fun x hx => ?_⟩
    rcases List.mem_append.mp hx with hx | hx
    · exact Expression.node_of_sites left x hx
    · exact Expression.node_of_sites right x hx
  | .cast operand ty => by
    rw [Expression.sites]
    exact List.forall_mem_cons.mpr ⟨⟨_, rfl⟩, Expression.node_of_sites operand⟩

theorem Expression.node_of_allSites : ∀ (es : List Expression), ∀ x ∈ Expression.allSites es,
    ∃ f, x = .node f
  | [] => by simp [Expression.allSites]
  | e :: rest => by
    rw [Expression.allSites]
    intro x hx
    rcases List.mem_append.mp hx with hx | hx
    · exact Expression.node_of_sites e x hx
    · exact Expression.node_of_allSites rest x hx

end

namespace Setting

variable {s : Setting} {S : Site → Prop} {cell : Int64} {code line : Line}

/-- Steady code in which every call is followed by a load of the cell. -/
def Fetching (s : Setting) (cell : Int64) (code : Line) : Prop :=
  ∃ phrases, code = Phrase.text phrases ∧
    (∀ r ∈ phrases, r.Complete ∧ s.Permits Opcode.neutral r) ∧ Fetched cell phrases

theorem fetching_instr {op : Opcode} {operands : List Int64}
    (hc : Instruction.Complete ⟨op, operands⟩) (h : op.neutral = true) :
    s.Fetching cell (instr op operands) := by
  refine ⟨[.plain ⟨op, operands⟩], by simp [Phrase.words, Instruction.words], ?_, .plain .nil⟩
  exact List.forall_mem_singleton.mpr ⟨hc, h⟩

theorem fetching_law : StackLaw s fun _ _ => s.Fetching cell where
  nil := ⟨[], rfl, by simp, .nil⟩
  append := by
    rintro _ _ _ _ _ ⟨front, rfl, hfront, h⟩ ⟨phrases, rfl, hphrases, hp⟩
    refine ⟨front ++ phrases, by simp, fun r hr => ?_, h.append hp⟩
    rcases List.mem_append.mp hr with hr | hr
    · exact hfront r hr
    · exact hphrases r hr
  above _ h := h
  ordinary {op operands n m} hop hlen _ := by
    have hne : op ≠ .lstr := by
      rintro rfl
      cases hop
    refine fetching_instr (Instruction.complete_of_length hne hlen) ?_
    revert hop
    cases op <;> decide

/-- A call in an expression is followed by a load of the result cell; nothing else in an expression
makes a call. -/
theorem fetching_meets (hcell : s.map.resultCell = .ok (some cell)) {e : Expression}
    (hx : (Site.node e).Obeys (s.Fetching cell)) :
    (Site.node e).Meets s fun _ _ => s.Fetching cell := by
  cases e with
  | literal value ty => exact hx.literal value rfl
  | constant name value ty => exact hx.literal value rfl
  | unary operator operand ty =>
    cases operator <;> exact fetching_instr (Instruction.complete_of_length (by decide) rfl) rfl
  | binary operator left right ty =>
    intro onStrings
    cases operator <;> cases onStrings <;>
      exact fetching_instr (Instruction.complete_of_length (by decide) rfl) rfl
  | call callee arguments ty =>
    intro flags fetched hf hr
    cases callee with
    | native routine =>
      cases hr
      rw [List.append_nil]
      exact hx.native routine rfl
    | subroutine index =>
      obtain ⟨sub, hs, _⟩ := Result.bind_eq_ok.mp hf
      have hload : fetched = instr .ldvg [cell] := by
        unfold fetchResult at hr
        rw [hcell] at hr
        exact (Result.pure_eq_ok.mp hr).symm
      subst hload
      refine ⟨[.call index, .plain ⟨.ldvg, [cell]⟩], rfl, ?_, .call .nil⟩
      refine List.forall_mem_cons.mpr ⟨⟨trivial, sub, hs⟩, List.forall_mem_singleton.mpr ⟨?_, rfl⟩⟩
      exact Instruction.complete_of_length (by decide) rfl
  | input | colour | var | address | cast => trivial

theorem fetching_expression (hcell : s.map.resultCell = .ok (some cell)) {e : Expression}
    (hx : ∀ x ∈ e.sites, x.Obeys (s.Fetching cell)) (h : s.expression false e = .ok code) :
    s.Fetching cell code := by
  refine fetching_law.expression e (fun x hm => ?_) h
  obtain ⟨f, rfl⟩ := e.node_of_sites x hm
  exact fetching_meets hcell (hx _ hm)

theorem fetching_arguments (hcell : s.map.resultCell = .ok (some cell))
    {arguments : List Expression}
    (hx : ∀ x ∈ Expression.allSites arguments, x.Obeys (s.Fetching cell)) {flags : List Bool}
    (h : s.arguments flags arguments = .ok code) : s.Fetching cell code := by
  refine fetching_law.arguments arguments (fun x hm => ?_) h
  obtain ⟨f, rfl⟩ := Expression.node_of_allSites arguments x hm
  exact fetching_meets hcell (hx _ hm)

theorem fetching_assignment (hcell : s.map.resultCell = .ok (some cell)) {a : Assignment}
    (hx : ∀ x ∈ a.sites, x.Obeys (s.Fetching cell)) (h : s.assignment a = .ok code) :
    s.Fetching cell code := by
  refine fetching_law.assignment (fun x hm => ?_) h
  obtain ⟨f, rfl⟩ : ∃ f, x = .node f := by
    rcases List.mem_append.mp hm with hm | hm
    · exact a.value.node_of_sites x hm
    · exact Expression.node_of_allSites a.indexes x hm
  exact fetching_meets hcell (hx _ hm)

theorem fetching_of_sites {p : Program} (s : Setting) (cell : Int64)
    (hn : ∀ routine ∈ p.natives, routine.code.MadeOf Opcode.neutral)
    (ht : ∀ t, .string t ∈ p.literals → t.toList.length < UInt64.size / 2) {x : Site}
    (hx : x ∈ p.sites) : x.Obeys (s.Fetching cell) := by
  refine ⟨fun routine hr => ?_, fun value hv => ?_⟩
  · obtain ⟨is, hcode, his⟩ := hn routine (List.mem_filterMap.mpr ⟨x, hx, hr⟩)
    refine ⟨is.map .plain, ?_, fun r hr => ?_, .instructions is⟩
    · rw [hcode, Phrase.text, List.flatMap_map]
      rfl
    · obtain ⟨i, hi, rfl⟩ := List.mem_map.mp hr
      exact his i hi
  · have hlength : ∀ t, value = .string t → t.toList.length < UInt64.size / 2 := by
      rintro t rfl
      exact ht t (List.mem_filterMap.mpr ⟨x, hx, hv⟩)
    obtain ⟨op, operands, hcode, hc, rfl | rfl⟩ := value.code_eq_instr hlength
    · rw [hcode]
      exact fetching_instr hc rfl
    · rw [hcode]
      exact fetching_instr hc rfl

/-! ## Returns -/

/-- The line at which a function ends leaves the value that `code` computes in the result cell: the
code of the value that is returned, or a load of the function's result variable. -/
inductive Delivers (s : Setting) (S : Site → Prop) (sub : Subroutine) (code line : Line) : Prop
  | value {e : Expression} : (∀ x ∈ e.sites, S x) → s.expression false e = .ok code →
      s.returnLine (some e) (.subroutine sub) = .ok line → Delivers s S sub code line
  | variable {slot : UInt64} : sub.resultVariable = some slot →
      s.load ⟨sub.index, slot⟩ = .ok code →
      s.returnLine none (.subroutine sub) = .ok line ∨ s.epilogue sub = .ok line →
      Delivers s S sub code line

/-- The line at which a function without a result variable ends with no value: it gives the frame
back and nothing else. -/
def Withholds (sub : Subroutine) (line : Line) : Prop :=
  sub.resultVariable = none ∧ ∃ pointer, line = instr .memr [pointer] ++ instr .retn []

def handBack (cell pointer : Int64) : List Instruction :=
  [⟨.stvg, [cell]⟩, ⟨.memr, [pointer]⟩, ⟨.retn, []⟩]

/-- What a line is, as far as calls and returns go: a call made by a statement, a line that goes on,
or the end of a subroutine. -/
inductive Finish (s : Setting) (S : Site → Prop) (cell : Int64) (placed : List Placement)
    (k : Nat) : List Phrase → Prop
  | calls {front : List Phrase} {index : UInt64} : Fetched cell front →
      (∀ r ∈ front, r.op ≠ .retn) → Finish s S cell placed k (front ++ [.call index])
  | passes {phrases : List Phrase} : Fetched cell phrases → (∀ r ∈ phrases, r.op ≠ .retn) →
      Finish s S cell placed k phrases
  | returns {sub : Subroutine} {pl : Placement} {front : List Phrase} {pointer : Int64} :
      sub ∈ s.map.subroutines → pl ∈ placed → pl.index = sub.index → pl.Has k →
      MemoryMap.frameCell sub.index = .ok pointer → Fetched cell front →
      (∀ r ∈ front, r.op ≠ .retn ∧ r.op ≠ .jump) →
      s.Delivers S sub (Phrase.text front)
        (Phrase.text (front ++ (handBack cell pointer).map .plain)) →
      Finish s S cell placed k (front ++ (handBack cell pointer).map .plain)
  | leaves {sub : Subroutine} {pl : Placement} {pointer : Int64} :
      sub ∈ s.map.subroutines → pl ∈ placed → pl.index = sub.index → pl.Has k →
      (sub.returns.isSome → sub.resultVariable = none) →
      Finish s S cell placed k [.plain ⟨.memr, [pointer]⟩, .plain ⟨.retn, []⟩]

def Finishes (s : Setting) (S : Site → Prop) (cell : Int64) (placed : List Placement) (k : Nat)
    (line : Line) : Prop :=
  ∃ phrases, line = Phrase.text phrases ∧
    (∀ r ∈ phrases, r.Complete ∧ s.Permits (· ≠ .subr) r) ∧ s.Finish S cell placed k phrases

variable {placed : List Placement} {k : Nat} {sub : Subroutine} {pl : Placement}

theorem text_plain (is : List Instruction) :
    Phrase.text (is.map .plain) = is.flatMap Instruction.words := by
  rw [Phrase.text, List.flatMap_map]
  rfl

theorem Fetching.phrases (h : s.Fetching cell code) {is : List Instruction}
    (his : ∀ i ∈ is, i.Complete ∧ i.op ≠ .subr) :
    ∃ front, code = Phrase.text front ∧
      code ++ is.flatMap Instruction.words = Phrase.text (front ++ is.map .plain) ∧
      (∀ r ∈ front ++ is.map .plain, r.Complete ∧ s.Permits (· ≠ .subr) r) ∧ Fetched cell front ∧
      ∀ r ∈ front, r.op ≠ .retn ∧ r.op ≠ .jump := by
  obtain ⟨front, rfl, hfront, hfetched⟩ := h
  refine ⟨front, rfl, by rw [Phrase.text_append, text_plain],
    fun r hr => ?_, hfetched, fun r hr => ?_⟩
  · rcases List.mem_append.mp hr with hr | hr
    · obtain ⟨hc, hp⟩ := hfront r hr
      refine ⟨hc, ?_⟩
      cases r with
      | plain i =>
        refine decide_eq_true fun he => ?_
        rw [Permits, he] at hp
        cases hp
      | call index => exact hp
    · obtain ⟨i, hi, rfl⟩ := List.mem_map.mp hr
      exact ⟨(his i hi).1, decide_eq_true (his i hi).2⟩
  · cases r with
    | plain i =>
      have hneutral : i.op.neutral = true := (hfront _ hr).2
      constructor
      · intro he
        rw [show i.op = .retn from he] at hneutral
        cases hneutral
      · intro he
        rw [show i.op = .jump from he] at hneutral
        cases hneutral
    | call index => exact ⟨Opcode.noConfusion, Opcode.noConfusion⟩

theorem Finishes.passes (h : s.Fetching cell code) {is : List Instruction}
    (his : ∀ i ∈ is, i.Complete ∧ i.op ≠ .subr) (hr : ∀ i ∈ is, i.op ≠ .retn) :
    s.Finishes S cell placed k (code ++ is.flatMap Instruction.words) := by
  obtain ⟨front, _, htext, hphrases, hfetched, hfront⟩ := h.phrases his
  refine ⟨_, htext, hphrases, .passes (hfetched.append (.instructions is)) fun r hm => ?_⟩
  rcases List.mem_append.mp hm with hm | hm
  · exact (hfront r hm).1
  · obtain ⟨i, hi, rfl⟩ := List.mem_map.mp hm
    exact hr i hi

theorem Finishes.straight (h : s.Fetching cell code) : s.Finishes S cell placed k code := by
  have hpasses : s.Finishes S cell placed k (code ++ [].flatMap Instruction.words) :=
    .passes h (by simp) (by simp)
  rwa [List.flatMap_nil, List.append_nil] at hpasses

theorem Finishes.ending (h : s.Fetching cell code) {op : Opcode} {operands : List Int64}
    (hop : op ≠ .lstr) (hlen : operands.length = op.operandCount) (hsubr : op ≠ .subr)
    (hretn : op ≠ .retn) : s.Finishes S cell placed k (code ++ instr op operands) := by
  have hpasses : s.Finishes S cell placed k
      (code ++ [⟨op, operands⟩].flatMap Instruction.words) := by
    refine .passes h (List.forall_mem_singleton.mpr ⟨?_, hsubr⟩)
      (List.forall_mem_singleton.mpr hretn)
    exact Instruction.complete_of_length hop hlen
  rwa [List.flatMap_singleton] at hpasses

theorem Finishes.called (h : s.Fetching cell code) {index : UInt64} {target : Subroutine}
    (htarget : s.map.subroutine index = .ok target) :
    s.Finishes S cell placed k (code ++ [.op .subr, .call index]) := by
  obtain ⟨front, rfl, _, hphrases, hfetched, hfront⟩ := h.phrases (List.forall_mem_nil _)
  rw [List.map_nil, List.append_nil] at hphrases
  refine ⟨front ++ [.call index], by simp [Phrase.words], fun r hr => ?_,
    .calls hfetched fun r hr => (hfront r hr).1⟩
  rcases List.mem_append.mp hr with hr | hr
  · exact hphrases r hr
  · obtain rfl := List.mem_singleton.mp hr
    exact ⟨trivial, target, htarget⟩

theorem Finishes.claims (h : s.Fetching cell code) (pointer length : Int64) :
    s.Finishes S cell placed k (instr .memc [pointer, length] ++ code) := by
  obtain ⟨front, rfl, _, hphrases, hfetched, hfront⟩ := h.phrases (List.forall_mem_nil _)
  rw [List.map_nil, List.append_nil] at hphrases
  refine ⟨.plain ⟨.memc, [pointer, length]⟩ :: front, rfl, ?_, .passes (.plain hfetched) ?_⟩
  · refine List.forall_mem_cons.mpr ⟨⟨?_, rfl⟩, hphrases⟩
    exact Instruction.complete_of_length (by decide) rfl
  · exact List.forall_mem_cons.mpr ⟨Opcode.noConfusion, fun r hr => (hfront r hr).1⟩

theorem Finishes.delivers (hsub : sub ∈ s.map.subroutines) (hpl : pl ∈ placed)
    (hindex : pl.index = sub.index) (hk : pl.Has k) {pointer : Int64}
    (hpointer : MemoryMap.frameCell sub.index = .ok pointer) (h : s.Fetching cell code)
    (hd : s.Delivers S sub code (code ++ (handBack cell pointer).flatMap Instruction.words)) :
    s.Finishes S cell placed k (code ++ (handBack cell pointer).flatMap Instruction.words) := by
  have hcomplete : ∀ i ∈ handBack cell pointer, i.Complete ∧ i.op ≠ .subr := by
    refine List.forall_mem_cons.mpr ⟨?_, List.forall_mem_cons.mpr ⟨?_,
        List.forall_mem_singleton.mpr ?_⟩⟩
    all_goals exact ⟨Instruction.complete_of_length Opcode.noConfusion rfl, Opcode.noConfusion⟩
  obtain ⟨front, rfl, htext, hphrases, hfetched, hfront⟩ := h.phrases hcomplete
  rw [htext] at hd ⊢
  exact ⟨_, rfl, hphrases, .returns hsub hpl hindex hk hpointer hfetched hfront hd⟩

theorem Finishes.leaves (hsub : sub ∈ s.map.subroutines) (hpl : pl ∈ placed)
    (hindex : pl.index = sub.index) (hk : pl.Has k)
    (hnone : sub.returns.isSome → sub.resultVariable = none) (pointer : Int64) :
    s.Finishes S cell placed k (instr .memr [pointer] ++ instr .retn []) := by
  refine ⟨[.plain ⟨.memr, [pointer]⟩, .plain ⟨.retn, []⟩], rfl, ?_,
    .leaves hsub hpl hindex hk hnone⟩
  refine List.forall_mem_cons.mpr ⟨⟨?_, rfl⟩, List.forall_mem_singleton.mpr ⟨?_, rfl⟩⟩
  · exact Instruction.complete_of_length (by decide) rfl
  · exact Instruction.complete_of_length (by decide) rfl

theorem copyResult_cases (hcell : s.map.resultCell = .ok (some cell))
    (h : s.copyResult sub = .ok code) :
    (code = [] ∧ (sub.returns.isSome → sub.resultVariable = none)) ∨
      ∃ slot value, sub.resultVariable = some slot ∧ s.load ⟨sub.index, slot⟩ = .ok value ∧
        code = value ++ instr .stvg [cell] := by
  unfold copyResult at h
  rw [hcell] at h
  obtain ⟨_, hc, h⟩ := Result.bind_eq_ok.mp h
  cases hc
  cases hreturns : sub.returns with
  | none =>
    rw [hreturns] at h
    cases h
    exact .inl ⟨rfl, by simp⟩
  | some ty =>
    cases hslot : sub.resultVariable with
    | none =>
      rw [hreturns, hslot] at h
      cases h
      exact .inl ⟨rfl, fun _ => rfl⟩
    | some slot =>
      rw [hreturns, hslot] at h
      simp only [Result.bind_eq_ok, Result.pure_eq_ok] at h
      obtain ⟨value, hvalue, rfl⟩ := h
      exact .inr ⟨slot, value, rfl, hvalue, rfl⟩

theorem Finishes.copies (hcell : s.map.resultCell = .ok (some cell))
    (hsub : sub ∈ s.map.subroutines) (hpl : pl ∈ placed) (hindex : pl.index = sub.index)
    (hk : pl.Has k) {pointer : Int64} (hpointer : MemoryMap.frameCell sub.index = .ok pointer)
    {result : Line} (hresult : s.copyResult sub = .ok result)
    (hline : s.returnLine none (.subroutine sub) =
        .ok (result ++ (instr .memr [pointer] ++ instr .retn [])) ∨
      s.epilogue sub = .ok (result ++ (instr .memr [pointer] ++ instr .retn []))) :
    s.Finishes S cell placed k (result ++ (instr .memr [pointer] ++ instr .retn [])) := by
  rcases copyResult_cases hcell hresult with ⟨rfl, hnone⟩ | ⟨slot, value, hslot, hvalue, rfl⟩
  · exact .leaves hsub hpl hindex hk hnone pointer
  · have hparts : value ++ instr .stvg [cell] ++ (instr .memr [pointer] ++ instr .retn []) =
        value ++ (handBack cell pointer).flatMap Instruction.words := List.append_assoc _ _ _
    rw [hparts] at hline ⊢
    exact .delivers hsub hpl hindex hk hpointer (fetching_law.load hvalue)
      (.variable hslot hvalue hline)

theorem returnLine_value (hcell : s.map.resultCell = .ok (some cell)) {e : Expression}
    (h : s.returnLine (some e) (.subroutine sub) = .ok line) :
    ∃ code pointer, s.expression false e = .ok code ∧ MemoryMap.frameCell sub.index = .ok pointer ∧
      line = code ++ (handBack cell pointer).flatMap Instruction.words := by
  unfold returnLine at h
  obtain ⟨_, hc, h⟩ := Result.bind_eq_ok.mp h
  rw [hcell] at hc
  cases hc
  simp only [Result.bind_eq_ok, Result.pure_eq_ok] at h
  obtain ⟨code, hcode, _, rfl, released, hreleased, rfl⟩ := h
  obtain ⟨pointer, hpointer, rfl⟩ := releaseFrame_ok hreleased
  exact ⟨code, pointer, hcode, hpointer, List.append_assoc _ _ _⟩

theorem Finishes.ret (hcell : s.map.resultCell = .ok (some cell))
    (hS : ∀ x, S x → x.Obeys (s.Fetching cell)) (hsub : sub ∈ s.map.subroutines) (hpl : pl ∈ placed)
    (hindex : pl.index = sub.index) (hk : pl.Has k) {value : Option Expression}
    (hx : ∀ e, value = some e → ∀ x ∈ e.sites, S x)
    (h : s.returnLine value (.subroutine sub) = .ok line) : s.Finishes S cell placed k line := by
  cases value with
  | none =>
    obtain ⟨result, pointer, hpointer, rfl, hresult | ⟨_, _, _, he, _⟩⟩ :=
      returnLine_subroutine_ok h
    · exact .copies hcell hsub hpl hindex hk hpointer hresult (.inl h)
    · cases he
  | some e =>
    obtain ⟨code, pointer, hcode, hpointer, rfl⟩ := returnLine_value hcell h
    have hfetching := fetching_expression hcell (fun x hm => hS x (hx e rfl x hm)) hcode
    exact .delivers hsub hpl hindex hk hpointer hfetching (.value (hx e rfl) hcode h)

theorem LineOf.finishes (hcell : s.map.resultCell = .ok (some cell))
    (hS : ∀ x, S x → x.Obeys (s.Fetching cell)) {routine : Routine} {lo hi : Nat}
    (hroutine : ∀ sub, routine = .subroutine sub →
      sub ∈ s.map.subroutines ∧ ∃ pl ∈ placed, pl.index = sub.index ∧ pl.Has k)
    (h : s.LineOf routine S lo hi line) : s.Finishes S cell placed k line := by
  cases h with
  | assign hx h => exact .straight (fetching_assignment hcell (fun x hm => hS x (hx x hm)) h)
  | @call c _ hx h =>
    obtain ⟨callee, arguments⟩ := c
    obtain ⟨flags, values, hflags, hvalues, rfl⟩ := call_ok h
    have hfetching := fetching_arguments hcell
      (fun x hm => hS x (hx x (List.mem_cons_of_mem _ hm))) hvalues
    cases callee with
    | native routine =>
      have hnative := (hS _ (hx _ List.mem_cons_self)).native routine rfl
      exact .straight (fetching_law.append (n := 0) (m := 0) (k := 0) hfetching hnative)
    | subroutine index =>
      obtain ⟨target, htarget, _⟩ := Result.bind_eq_ok.mp hflags
      exact .called hfetching htarget
  | test hx h _ =>
    exact .ending (fetching_expression hcell (fun x hm => hS x (hx x hm)) h)
      (by decide) rfl (by decide)
      (by decide)
  | skip _ => exact .ending fetching_law.nil (by decide) rfl (by decide) (by decide)
  | change hx h _ =>
    exact .ending (fetching_assignment hcell (fun x hm => hS x (hx x hm)) h)
      (by decide) rfl (by decide)
      (by decide)
  | @ret value _ hx h =>
    cases routine with
    | program p =>
      cases h
      exact .ending fetching_law.nil (by decide) rfl (by decide) (by decide)
    | subroutine sub =>
      obtain ⟨hsub, pl, hpl, hindex, hk⟩ := hroutine sub rfl
      exact .ret hcell hS hsub hpl hindex hk hx h

theorem Layout.finishes {a : Assembly} (layout : s.Layout S a placed)
    (hcell : s.map.resultCell = .ok (some cell)) (hS : ∀ x, S x → x.Obeys (s.Fetching cell))
    (hk : a.lines[k]? = some line) : s.Finishes S cell placed k line := by
  cases layout.part k line hk with
  | startup hfirst hl _ _ => exact .straight (fetching_law.startup hfirst line hl).1
  | skip _ _ _ => exact .ending fetching_law.nil (by decide) rfl (by decide) (by decide)
  | main _ _ _ hline => exact hline.finishes hcell hS fun _ he => by cases he
  | halt _ => exact .ending fetching_law.nil (by decide) rfl (by decide) (by decide)
  | @sub sub pl _ _ hsub hpl hindex hline =>
    have hhas := hline.has (layout.inside pl hpl).1
    cases hline with
    | entry hentry =>
      have law : StackLaw s fun _ _ => s.Fetching cell := fetching_law
      obtain ⟨pointer, length, rest, _, rfl, hrest⟩ := law.prologue hentry
      exact .claims hrest pointer length
    | body _ _ hbody =>
      refine hbody.finishes hcell hS fun sub' he => ?_
      cases he
      exact ⟨hsub, pl, hpl, hindex, hhas⟩
    | exit _ hexit =>
      obtain ⟨result, pointer, hresult, hpointer, rfl⟩ := epilogue_ok hexit
      exact .copies hcell hsub hpl hindex hhas hpointer hresult (.inr hexit)

end Setting

/-! ## Linked lines -/

/-- The instructions of a linked line; a line with a call is not cleared. -/
theorem Pcode.instructionsOf_page {q : Pcode} {placed : Placements} {pages : List (List Phrase)}
    (hout : q.lines = pages.map (linkedLine placed)) {k : Nat} {phrases : List Phrase}
    (hk : pages[k]? = some phrases) (hc : ∀ r ∈ phrases, r.Complete) :
    ∃ tidy, Tidied phrases tidy ∧ q.instructionsOf k = tidy.map (Phrase.resolve placed) ∧
      ((∃ r ∈ phrases, r.op = .subr) → tidy = phrases) := by
  by_cases hcall : ∃ r ∈ phrases, r.op = .subr
  · have hdecode := decode_tidied placed hc (.inl rfl) (tidyLine_of_call placed hcall)
    exact ⟨phrases, .inl rfl, instructionsOf_linked hout hk hdecode, fun _ => rfl⟩
  · obtain ⟨tidy, htidy, hdecode⟩ := decode_linkedLine placed hc
    exact ⟨tidy, htidy, instructionsOf_linked hout hk hdecode, fun h => absurd h hcall⟩

theorem Setting.Finish.fetches {s : Setting} {S : Site → Prop} {cell : Int64}
    {placed : List Placement} {k : Nat} {phrases before after : List Phrase} {index : UInt64}
    (h : s.Finish S cell placed k phrases) (hp : phrases = before ++ .call index :: after)
    (ha : after ≠ []) : ∃ more, after = .plain ⟨.ldvg, [cell]⟩ :: more := by
  cases h with
  | @calls front last hfetched _ =>
    rcases List.eq_nil_or_concat after with rfl | ⟨more, final, rfl⟩
    · exact absurd rfl ha
    · rw [List.concat_eq_append, ← List.cons_append, ← List.append_assoc] at hp
      obtain ⟨rfl, _⟩ := List.append_inj' hp rfl
      obtain ⟨rest, rfl⟩ := hfetched.next
      exact ⟨rest ++ [final], by simp⟩
  | passes hfetched _ =>
    rw [hp] at hfetched
    exact hfetched.next
  | @returns _ _ front pointer _ _ _ _ _ hfetched _ _ =>
    have hall : Fetched cell (front ++ (handBack cell pointer).map .plain) :=
      hfetched.append (.instructions _)
    rw [hp] at hall
    exact hall.next
  | leaves _ _ _ _ _ =>
    have hmem : Phrase.call index ∈ before ++ .call index :: after := by simp
    rw [← hp] at hmem
    simp at hmem

/-- The lines of a linked program as pages of phrases, and what each line is. -/
structure Paged (s : Setting) (S : Site → Prop) (cell : Int64) (placed : List Placement)
    (a : Assembly) (q : Pcode) (pages : List (List Phrase)) : Prop where
  lines : a.lines = pages.map Phrase.text
  linked : q.lines = pages.map (linkedLine a.placements)
  page : ∀ (k : Nat) phrases, pages[k]? = some phrases →
    (∀ r ∈ phrases, r.Complete ∧ s.Permits (· ≠ .subr) r) ∧ s.Finish S cell placed k phrases

namespace Paged

variable {s : Setting} {S : Site → Prop} {cell : Int64} {placed : List Placement} {a : Assembly}
  {q : Pcode} {pages : List (List Phrase)} {k : Nat}

theorem exists_page (h : Paged s S cell placed a q pages) {j : Nat} {i : Instruction}
    (hat : q.at? ⟨k, j⟩ = some i) : ∃ phrases tidy, pages[k]? = some phrases ∧ Tidied phrases tidy ∧
      q.instructionsOf k = tidy.map (Phrase.resolve a.placements) ∧
      ((∃ r ∈ phrases, r.op = .subr) → tidy = phrases) := by
  cases hk : pages[k]? with
  | none =>
    have hline : q.lines[k]? = none := by
      rw [h.linked, List.getElem?_map, hk]
      rfl
    rw [Pcode.at?_eq_getElem?, Pcode.instructionsOf, hline] at hat
    cases hat
  | some phrases =>
    obtain ⟨tidy, htidy⟩ := Pcode.instructionsOf_page h.linked hk
      fun r hr => ((h.page k _ hk).1 r hr).1
    exact ⟨phrases, tidy, rfl, htidy⟩

theorem fetches (h : Paged s S cell placed a q pages) {c : Activation} (hc : q.Backs c)
    (hback : c.back.pos ≠ 0) : q.at? c.back = some ⟨.ldvg, [cell]⟩ := by
  obtain ⟨⟨k, j⟩, target, hat, _, hafter⟩ := hc
  obtain ⟨rest, hrest⟩ := Pcode.at?_eq_some hat
  rcases Pcode.after_cases hrest with ⟨_, hnext⟩ | ⟨hne, _, hnext⟩
  · rw [hafter, hnext] at hback
    exact absurd rfl hback
  rw [hafter, Pcode.at?, hnext]
  obtain ⟨phrases, tidy, hpage, htidy, his, hcall⟩ := h.exists_page hat
  rw [Pcode.rest, his, ← List.map_drop, List.map_eq_cons_iff] at hrest
  obtain ⟨r, after, hdrop, hr, rfl⟩ := hrest
  have hop : r.op = .subr := by
    rw [← r.resolve_op a.placements, hr]
  have hparts : tidy = tidy.take j ++ r :: after := by
    rw [← hdrop, List.take_append_drop]
  have hmem : r ∈ phrases := by
    refine htidy.mem_of_op_ne (hparts ▸ by simp) ?_
    rw [hop]
    exact Opcode.noConfusion
  obtain rfl := hcall ⟨r, hmem, hop⟩
  obtain ⟨hphrases, hfinish⟩ := h.page k _ hpage
  cases r with
  | plain i => exact absurd hop (of_decide_eq_true (hphrases _ hmem).2)
  | call index =>
    obtain ⟨more, rfl⟩ := hfinish.fetches hparts (by simpa using hne)
    rfl

theorem pos_of_retn {front tail : List Instruction} {i j : Instruction} {n : Nat}
    (hfront : ∀ x ∈ front, x.op ≠ .retn) (hi : i.op ≠ .retn) (hj : j.op ≠ .retn)
    (htail : ∀ x ∈ tail, x.op ≠ .retn)
    (h : (front ++ i :: j :: ⟨.retn, []⟩ :: tail)[n]? = some ⟨.retn, []⟩) :
    n = front.length + 2 := by
  rcases Nat.lt_or_ge n front.length with hlt | hge
  · rw [List.getElem?_append_left hlt] at h
    exact absurd rfl (hfront _ (List.mem_of_getElem? h))
  · obtain ⟨m, rfl⟩ := Nat.exists_eq_add_of_le hge
    rw [List.getElem?_append_right hge, Nat.add_sub_cancel_left] at h
    match m, h with
    | 0, h => exact absurd (congrArg Instruction.op (Option.some.inj h)) hi
    | 1, h => exact absurd (congrArg Instruction.op (Option.some.inj h)) hj
    | 2, _ => rfl
    | m + 3, h => exact absurd rfl (htail _ (List.mem_of_getElem? h))

/-- On a line that hands a result back, the places of the store, of the release of the frame and of
the return. -/
theorem places_of_retn {front tail : List Instruction} {pointer : Int64} {n : Nat}
    (hparts : q.instructionsOf k =
      front ++ ⟨.stvg, [cell]⟩ :: ⟨.memr, [pointer]⟩ :: ⟨.retn, []⟩ :: tail)
    (hfront : ∀ x ∈ front, x.op ≠ .retn) (htail : ∀ x ∈ tail, x.op ≠ .retn)
    (hat : q.at? ⟨k, n⟩ = some ⟨.retn, []⟩) :
    n = front.length + 2 ∧ q.at? ⟨k, front.length⟩ = some ⟨.stvg, [cell]⟩ ∧
      q.at? ⟨k, front.length + 1⟩ = some ⟨.memr, [pointer]⟩ := by
  simp only [Pcode.at?_eq_getElem?, hparts] at hat ⊢
  refine ⟨pos_of_retn hfront Opcode.noConfusion Opcode.noConfusion htail hat, ?_, ?_⟩
  · rw [List.getElem?_append_right (Nat.le_refl _), Nat.sub_self]
    rfl
  · rw [List.getElem?_append_right (Nat.le_add_right _ 1), Nat.add_sub_cancel_left]
    rfl

theorem returning (h : Paged s S cell placed a q pages) {n : Nat}
    (hat : q.at? ⟨k, n⟩ = some ⟨.retn, []⟩) :
    ∃ sub pl line, sub ∈ s.map.subroutines ∧ pl ∈ placed ∧ pl.index = sub.index ∧ pl.Has k ∧
      a.lines[k]? = some line ∧
      ((sub.returns.isSome → Setting.Withholds sub line) ∨
        ∃ code pointer, s.Delivers S sub code line ∧ MemoryMap.frameCell sub.index = .ok pointer ∧
          n = code.opcodes.length + 2 ∧ q.at? ⟨k, code.opcodes.length⟩ = some ⟨.stvg, [cell]⟩ ∧
          q.at? ⟨k, code.opcodes.length + 1⟩ = some ⟨.memr, [pointer]⟩) := by
  obtain ⟨phrases, tidy, hpage, htidy, his, _⟩ := h.exists_page hat
  obtain ⟨hphrases, hfinish⟩ := h.page k phrases hpage
  have hline : a.lines[k]? = some (Phrase.text phrases) := by
    rw [h.lines, List.getElem?_map, hpage]
    rfl
  -- the return was there before the heap was cleaned
  have hretn : ∃ r ∈ phrases, r.op = .retn := by
    have hthere := hat
    rw [Pcode.at?_eq_getElem?, his] at hthere
    obtain ⟨r, hr, he⟩ := List.mem_map.mp (List.mem_of_getElem? hthere)
    have hop : r.op = .retn := by rw [← r.resolve_op a.placements, he]
    refine ⟨r, htidy.mem_of_op_ne hr ?_, hop⟩
    rw [hop]
    exact Opcode.noConfusion
  cases hfinish with
  | calls _ hfront =>
    obtain ⟨r, hr, hop⟩ := hretn
    rcases List.mem_append.mp hr with hr | hr
    · exact absurd hop (hfront r hr)
    · obtain rfl := List.mem_singleton.mp hr
      cases hop
  | passes _ hnone =>
    obtain ⟨r, hr, hop⟩ := hretn
    exact absurd hop (hnone r hr)
  | @leaves sub pl pointer hsub hpl hindex hk hnone =>
    exact ⟨sub, pl, _, hsub, hpl, hindex, hk, hline, .inl fun hs => ⟨hnone hs, pointer, rfl⟩⟩
  | @returns sub pl front pointer hsub hpl hindex hk hpointer _ hfront hdelivers =>
    have hjump : ∀ r ∈ front ++ (Setting.handBack cell pointer).map .plain, r.op ≠ .jump := by
      intro r hr
      rcases List.mem_append.mp hr with hr | hr
      · exact (hfront r hr).2
      · simp only [Setting.handBack, List.map_cons, List.map_nil, List.mem_cons, List.not_mem_nil,
          or_false] at hr
        rcases hr with rfl | rfl | rfl <;> exact Opcode.noConfusion
    obtain ⟨tail, rfl, htail⟩ := htidy.eq_append hjump
    have hlength : (Phrase.text front).opcodes.length =
        (front.map (Phrase.resolve a.placements)).length := by
      rw [Phrase.opcodes_text, List.length_map, List.length_map]
    have hparts : q.instructionsOf k = front.map (Phrase.resolve a.placements) ++
        ⟨.stvg, [cell]⟩ :: ⟨.memr, [pointer]⟩ :: ⟨.retn, []⟩ ::
          tail.map (Phrase.resolve a.placements) := by
      rw [his, List.append_assoc, List.map_append]
      rfl
    have hplaces := places_of_retn hparts ?_ ?_ hat
    · rw [← hlength] at hplaces
      exact ⟨sub, pl, _, hsub, hpl, hindex, hk, hline,
        .inr ⟨Phrase.text front, pointer, hdelivers, hpointer, hplaces⟩⟩
    · intro x hx
      obtain ⟨r, hr, rfl⟩ := List.mem_map.mp hx
      rw [Phrase.resolve_op]
      exact (hfront r hr).1
    · intro x hx
      obtain ⟨r, hr, rfl⟩ := List.mem_map.mp hx
      rw [htail r hr]
      exact Opcode.noConfusion

end Paged

theorem bmod_sub_one_ne {n count : Nat} (h1 : 1 ≤ n) (h2 : n ≤ count) (h3 : count < UInt64.size) :
    (n : Int).bmod Int64.size - 1 ≠ (count : Int).bmod Int64.size := by
  have hsize : Int64.size = 18446744073709551616 := rfl
  have husize : UInt64.size = 18446744073709551616 := rfl
  rw [Int.bmod_def, Int.bmod_def, hsize]
  rw [husize] at h3
  omega

theorem frameCell_ne_resultCell {p : Program}
    (hd : (p.allSubroutines.map (·.index.toNat)).Perm (List.range' 1 p.allSubroutines.length))
    {sub : Subroutine} (hsub : sub ∈ p.allSubroutines) {pointer cell : Int64}
    (hpointer : MemoryMap.frameCell sub.index = .ok pointer)
    (hcell : (MemoryMap.of p).resultCell = .ok (some cell)) : cell.toInt ≠ pointer.toInt := by
  have hindex : 1 ≤ sub.index.toNat ∧ sub.index.toNat ≤ p.allSubroutines.length := by
    have hmem := hd.mem_iff.mp (List.mem_map_of_mem (f := (·.index.toNat)) hsub)
    rw [List.mem_range'_1] at hmem
    omega
  -- the highest index is a word, so the number of subroutines is
  have hcount : p.allSubroutines.length < UInt64.size := by
    have hmem : p.allSubroutines.length ∈ p.allSubroutines.map (·.index.toNat) := by
      rw [hd.mem_iff, List.mem_range'_1]
      omega
    obtain ⟨last, _, hlast⟩ := List.mem_map.mp hmem
    rw [← hlast]
    exact UInt64.toNat_lt_size last.index
  obtain ⟨above, habove, hpointer⟩ := Result.bind_eq_ok.mp hpointer
  have hresult : Cell.add MemoryMap.reservedCells (MemoryMap.of p).subroutineCount = .ok cell := by
    unfold MemoryMap.resultCell at hcell
    split at hcell
    · obtain ⟨w, hw, he⟩ := Result.map_eq_ok.mp hcell
      exact hw.trans (congrArg Except.ok (Option.some.inj he))
    · cases hcell
  rw [Cell.add_eq_ok] at habove hresult
  rw [Cell.sub_eq_ok] at hpointer
  have hindex' : sub.index.toInt64.toInt = (sub.index.toNat : Int).bmod Int64.size :=
    calc sub.index.toInt64.toInt = (UInt64.ofNat sub.index.toNat).toInt64.toInt := by
          rw [UInt64.ofNat_toNat]
      _ = (Int64.ofNat sub.index.toNat).toInt := by rw [UInt64.toInt64_ofNat']
      _ = (sub.index.toNat : Int).bmod Int64.size := Int64.toInt_ofNat'
  have hcount' : (MemoryMap.of p).subroutineCount.toInt =
      (p.allSubroutines.length : Int).bmod Int64.size := Int64.toInt_ofNat'
  have hone : (1 : Int64).toInt = 1 := by decide
  have hne := bmod_sub_one_ne hindex.1 hindex.2 hcount
  rw [hpointer, habove, hresult, hindex', hcount', hone, Int.add_sub_assoc]
  exact fun he => hne (Int.add_left_cancel he).symm

/-! ## From the function to its caller -/

/-- The latest snapshot of a run is about to return from a call, and the value that was on top of
the stack `length` instructions into its line, which was just two instructions before, is the value
that the caller gets: to return and to load the result is all that can happen next, and then it is
on top of the stack. -/
def Kept (q : Pcode) (E : Interpretation) (length : Nat) (c : Activation) (u : Snapshot)
    (past : List Snapshot) : Prop :=
  ∃ value stack stored computed older returned loaded, past = stored :: computed :: older ∧
    computed.control.point = ⟨u.control.point.line, length⟩ ∧ computed.data.stack = value :: stack ∧
    (∀ y, q.Moves E u y ↔ y = returned) ∧ returned.control.point = c.back ∧
    (∀ y, q.Moves E returned y ↔ y = loaded) ∧ loaded.data.stack = value :: returned.data.stack

namespace Pcode

variable {q : Pcode} {E : Interpretation}

/-- **Nothing comes between.**  At a return that comes right after a store into a cell and giving a
frame back, what was stored is what the caller loads from the cell. -/
theorem Run.kept {u : Snapshot} {past : List Snapshot} (hrun : q.Run E (u :: past)) {c : Activation}
    {calls : List Activation} (hcalls : u.control.calls = c :: calls) {k n : Nat}
    (hu : u.control.point = ⟨k, n + 2⟩) {cell pointer : Int64} (hne : cell.toInt ≠ pointer.toInt)
    (hstore : q.at? ⟨k, n⟩ = some ⟨.stvg, [cell]⟩)
    (hrelease : q.at? ⟨k, n + 1⟩ = some ⟨.memr, [pointer]⟩)
    (hretn : q.at? ⟨k, n + 2⟩ = some ⟨.retn, []⟩)
    (hload : q.at? c.back = some ⟨.ldvg, [cell]⟩) : Kept q E n c u past := by
  obtain ⟨stored, past, rfl, hstored, hrun, hreleased⟩ := hrun.previous hu hrelease (by simp)
  obtain ⟨computed, older, rfl, hcomputed, _, hdone⟩ := hrun.previous hstored hstore (by simp)
  obtain ⟨value, stack, hstack, hdata⟩ := E.store.mp hdone
  have hvalue : u.data.memory cell.toInt = value := by
    rw [E.release hreleased _ hne, hdata]
    exact Function.update_self _ _ _
  rw [← hu] at hretn
  refine ⟨value, stack, stored, computed, older, _, _, rfl, by rw [hu]; exact hcomputed, hstack,
    moves_back hretn hcalls, rfl, moves_load hload, ?_⟩
  dsimp only
  rw [hvalue]

end Pcode

theorem Setting.exists_resultCell {p : Program} {options : Options} {a : Assembly}
    (ha : (Setting.of p options).assemble = .ok a)
    {sub : Subroutine} (hsub : sub ∈ p.allSubroutines)
    (hreturns : sub.returns.isSome) : ∃ cell, (MemoryMap.of p).resultCell = .ok (some cell) := by
  obtain ⟨first, _, _, _, hfirst, _⟩ := assemble_ok ha
  obtain ⟨base, hbase, _⟩ := Result.bind_eq_ok.mp hfirst
  obtain ⟨cell, hcell, _⟩ := Result.bind_eq_ok.mp hbase
  have hcell : (MemoryMap.of p).resultCell = .ok cell := hcell
  have hany : (MemoryMap.of p).returnsSome = true := List.any_eq_true.mpr ⟨sub, hsub, hreturns⟩
  rw [MemoryMap.resultCell, if_pos hany] at hcell
  obtain ⟨w, _, rfl⟩ := Result.map_eq_ok.mp hcell
  refine ⟨w, ?_⟩
  rw [MemoryMap.resultCell, if_pos hany, hcell]

theorem Setting.Layout.paged {p : Program} {options : Options} {a : Assembly} {q : Pcode}
    {placed : List Placement} (layout : (Setting.of p options).Layout (· ∈ p.sites) a placed)
    (hq : link a = .ok q) {cell : Int64} (hcell : (MemoryMap.of p).resultCell = .ok (some cell))
    (hn : ∀ routine ∈ p.natives, routine.code.MadeOf Opcode.neutral)
    (ht : ∀ t, .string t ∈ p.literals → t.toList.length < UInt64.size / 2) :
    ∃ pages, Paged (Setting.of p options) (· ∈ p.sites) cell placed a q pages := by
  have hread (k : Nat) (line : Line) (hk : a.lines[k]? = some line) :
      ∃ phrases, line = Phrase.text phrases ∧
        (∀ r ∈ phrases, r.Complete ∧ r.Resolvable a.placements) ∧
        (∀ r ∈ phrases, r.Complete ∧ (Setting.of p options).Permits (· ≠ .subr) r) ∧
        (Setting.of p options).Finish (· ∈ p.sites) cell placed k phrases := by
    obtain ⟨phrases, htext, hphrases, hfinish⟩ :=
      layout.finishes hcell (fun x hx => fetching_of_sites _ cell hn ht hx) hk
    exact ⟨phrases, htext, fun r hr => ⟨(hphrases r hr).1, layout.resolvable (hphrases r hr).2⟩,
      hphrases, hfinish⟩
  obtain ⟨pages, hlines, hout, _, hpages⟩ := link_pages hread hq
  exact ⟨pages, hlines, hout, fun k phrases hk => (hpages k phrases hk).2⟩

/-- **Results are never overwritten.**  Let the subroutines be numbered from 1 on, and let native
code be made of complete instructions that neither move control nor handle frames.  Whenever a
function is about to return to an expression, it ends with a value, or it has no result variable and
ends without one.  If it ends with a value, the value that its line has computed is the one that the
expression loads from the result cell right after the call. -/
theorem result_kept {p : Program} {options : Options} {a : Assembly} {q : Pcode}
    {E : Interpretation}
    (ha : (Setting.of p options).assemble = .ok a) (hq : generate p options = .ok q)
    (hd : (p.allSubroutines.map (·.index.toNat)).Perm (List.range' 1 p.allSubroutines.length))
    (hn : ∀ routine ∈ p.natives, routine.code.MadeOf Opcode.neutral)
    (ht : ∀ t, .string t ∈ p.literals → t.toList.length < UInt64.size / 2)
    {u : Snapshot} {past : List Snapshot} (hrun : q.Run E (u :: past))
    (hretn : q.at? u.control.point = some ⟨.retn, []⟩)
    {c : Activation} {calls : List Activation} (hcalls : u.control.calls = c :: calls)
    (hback : c.back.pos ≠ 0) {sub : Subroutine} (hsub : sub ∈ p.allSubroutines)
    (hreturns : sub.returns.isSome) (hentry : a.placements.start? sub.index = some c.entry) :
    ∃ line cell, a.lines[u.control.point.line]? = some line ∧
      (MemoryMap.of p).resultCell = .ok (some cell) ∧ q.at? c.back = some ⟨.ldvg, [cell]⟩ ∧
      (Setting.Withholds sub line ∨
        ∃ code, (Setting.of p options).Delivers (· ∈ p.sites) sub code line ∧
          Kept q E code.opcodes.length c u past) := by
  obtain ⟨placed, layout, hlink, ruled⟩ := generate_ruled ha hq hn ht
  obtain ⟨cell, hcell⟩ := Setting.exists_resultCell ha hsub hreturns
  obtain ⟨pages, paged⟩ := layout.paged hlink hcell hn ht
  have hload := paged.fetches (hrun.reaches.backs c (hcalls ▸ List.mem_cons_self)) hback
  obtain ⟨sub', pl, line, hsub', hpl, hindex, hhas, hline, hends⟩ := paged.returning hretn
  -- the line is one of the subroutine that was called
  obtain rfl : sub' = sub := by
    obtain ⟨c', calls', pl', hcalls', hpl', hentry', hhas'⟩ :=
      (hrun.reaches.good ruled).of_retn ruled hretn
    obtain ⟨rfl, rfl⟩ := List.cons.inj (hcalls.symm.trans hcalls')
    obtain rfl := layout.unique hpl hpl' hhas hhas'
    obtain ⟨pl', hfind, hstart⟩ := Option.map_eq_some_iff.mp hentry
    have hpl' : pl' ∈ placed := by
      have hmem := List.mem_of_find?_eq_some hfind
      rw [layout.placements] at hmem
      exact Placements.mem_of_mem_ofList hmem
    obtain rfl := layout.eq_of_start hpl hpl' (hentry'.symm.trans hstart.symm)
    have hsame : sub'.index = sub.index := by
      have hfound := List.find?_some hfind
      rw [← hindex]
      exact of_decide_eq_true hfound
    have hnodup := hd.nodup_iff.mpr List.nodup_range'
    exact List.inj_on_of_nodup_map hnodup hsub' hsub (congrArg UInt64.toNat hsame)
  refine ⟨line, cell, hline, hcell, hload, ?_⟩
  rcases hends with hwithholds | ⟨code, pointer, hdelivers, hpointer, hpos, hstore, hrelease⟩
  · exact .inl (hwithholds hreturns)
  · have hu : u.control.point = ⟨u.control.point.line, code.opcodes.length + 2⟩ := by
      rw [← hpos]
    exact .inr ⟨code, hdelivers, hrun.kept hcalls hu
      (frameCell_ne_resultCell hd hsub hpointer hcell) hstore hrelease (hu ▸ hretn) hload⟩

/-! ### A return inside the value that another call returns -/

/-- A machine that puts frames one above the other.  A cell below a frame keeps what its frame
pointer was before, and cell -1 the end of the last frame. -/
def bookkeeper : Machine where
  unary := fun _ _ x => x
  binary := fun _ _ x y => if y < x then 1 else 0
  text := fun _ _ => 0
  other := fun op operands t =>
    match op, operands, t.stack with
    | .memc, [pointer, length], stack =>
      let top := t.memory (-1)
      let saved := Function.update t.memory top (t.memory pointer.toInt)
      some ⟨Function.update (Function.update saved pointer.toInt (top + 1)) (-1)
        (top + 1 + length.toInt), stack⟩
    | .memr, [pointer], stack =>
      let before := t.memory (t.memory pointer.toInt - 1)
      some ⟨Function.update t.memory pointer.toInt before, stack⟩
    | .canv, [], _ :: _ :: _ :: _ :: stack => some ⟨t.memory, stack⟩
    | .reso, [], _ :: _ :: stack => some ⟨t.memory, stack⟩
    | .ifno, [_], _ :: stack => some ⟨t.memory, stack⟩
    | .prnt, [], _ :: stack => some ⟨t.memory, stack⟩
    | _, _, _ => some t

theorem bookkeeper_proper : bookkeeper.Proper where
  release {cell x y} h k hk := by
    have hexec : bookkeeper.exec ⟨.memr, [cell]⟩ x = some ⟨Function.update x.memory cell.toInt
      (x.memory (x.memory cell.toInt - 1)), x.stack⟩ := rfl
    rw [hexec] at h
    obtain rfl := Option.some.inj h
    exact Function.update_of_ne hk _ _
  back _ := rfl

def elevenLeft : Memory := fun k => if k = -1 then 1000 else if k = 11 then 11 else 0

/-- The function of `countdown` was called with 11, and then with 10 inside the value to return.
The second call has computed 2 and is about to return. -/
theorem result_kept_countdown : ∃ a q u past c calls sub,
    (Setting.of countdown {}).assemble = .ok a ∧ generate countdown {} = .ok q ∧
    q.Run (bookkeeper.interpretation bookkeeper_proper) (u :: past) ∧
    u.control.point = ⟨4, 8⟩ ∧ past[1]?.map (·.data.stack) = some [2, 11] ∧
    u.control.calls = c :: calls ∧ c.back = ⟨4, 4⟩ ∧
    sub ∈ countdown.allSubroutines ∧ sub.returns.isSome ∧
    a.placements.start? sub.index = some c.entry ∧
    ∃ line cell, a.lines[u.control.point.line]? = some line ∧
      (MemoryMap.of countdown).resultCell = .ok (some cell) ∧
      q.at? c.back = some ⟨.ldvg, [cell]⟩ ∧
      (Setting.Withholds sub line ∨
        ∃ code, (Setting.of countdown {}).Delivers (· ∈ countdown.sites) sub code line ∧
          Kept q (bookkeeper.interpretation bookkeeper_proper) code.opcodes.length c u past) := by
  have assembled : ((Setting.of countdown {}).assemble.toOption.map fun a =>
      countdown.allSubroutines.map fun sub => (sub.returns.isSome, a.placements.start? sub.index)) =
        some [(true, some 2)] := by
    decide +kernel
  have runs : ((generate countdown {}).toOption.bind fun q =>
      (bookkeeper.history? q 82 [⟨⟨⟨0, 0⟩, [], []⟩, ⟨elevenLeft, []⟩⟩]).map fun history =>
        decide (q.at? ⟨4, 8⟩ = some ⟨.retn, []⟩ ∧ history[2]?.map (·.data.stack) = some [2, 11] ∧
          history.head?.map (fun u => (u.control.point, u.control.calls.map fun c =>
            (c.entry, c.back)))
            = some (⟨4, 8⟩, [(2, ⟨4, 4⟩), (2, ⟨9, 2⟩)]))) = some true := by
    decide +kernel
  obtain ⟨a, ha, hstarts⟩ := Option.map_eq_some_iff.mp assembled
  obtain ⟨sub, rest, hsubs, hsub, _⟩ := List.map_eq_cons_iff.mp hstarts
  obtain ⟨hreturns, hstart⟩ := Prod.mk.inj hsub
  have hmem : sub ∈ countdown.allSubroutines := hsubs ▸ List.mem_cons_self
  obtain ⟨q, hq, runs⟩ := Option.bind_eq_some_iff.mp runs
  obtain ⟨history, hhistory, hview⟩ := Option.map_eq_some_iff.mp runs
  obtain ⟨hretn, hstack, hview⟩ := of_decide_eq_true hview
  obtain ⟨u, hu, hstate⟩ := Option.map_eq_some_iff.mp hview
  obtain ⟨past, rfl⟩ := List.head?_eq_some_iff.mp hu
  obtain ⟨hpoint, hopen⟩ := Prod.mk.inj hstate
  obtain ⟨c, calls, hcalls, hc, _⟩ := List.map_eq_cons_iff.mp hopen
  obtain ⟨hentry, hback⟩ := Prod.mk.inj hc
  have ha := Result.of_toOption ha
  have hq := Result.of_toOption hq
  have hrun := Machine.run_history bookkeeper_proper (.start _) hhistory
  rw [← hentry] at hstart
  refine ⟨a, q, u, past, c, calls, sub, ha, hq, hrun, hpoint, hstack, hcalls, hback, hmem, hreturns,
    hstart, ?_⟩
  exact result_kept ha hq (by decide +kernel)
    (fun routine hr => (countdown_natives _ rfl routine hr).2) countdown_literals hrun
    (hpoint ▸ hretn) hcalls (by rw [hback]; decide) hmem hreturns hstart

end TurtleCode
