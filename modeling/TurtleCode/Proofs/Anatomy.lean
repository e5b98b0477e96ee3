import TurtleCode.Proofs.Layout
import TurtleCode.Proofs.CodeLaw

/-!
# Lines from front to back

A line is code that control goes through, followed by one of a few ways to leave the line.  Only the
line that a subroutine starts with also claims a frame.

* `Setting.Lead`: the code in front, with the number of values that it leaves for what follows.
* `Setting.Ending`: how a line is left.
* `Setting.Layout.shape`: every line of an assembly is made so.
* `StackLaw.lead`: what holds of all code holds of the code in front.
* `Setting.Layout.law`: what holds of all code and of the endings holds of every line.
-/

namespace TurtleCode

/-- The lines of a subroutine that jumps inside it may go to: all but the first. -/
def Placement.Own (pl : Placement) (k : Nat) : Prop := pl.start < k ∧ k < pl.stop

theorem Placement.Own.has {pl : Placement} {k : Nat} (h : pl.Own k) : pl.Has k :=
  ⟨Nat.le_of_lt h.1, h.2⟩

def Placement.frame (pl : Placement) : Int64 :=
  match MemoryMap.frameCell pl.index with
  | .ok cell => cell
  | .error _ => 0

theorem Placement.frame_eq {pl : Placement} {cell : Int64}
    (h : MemoryMap.frameCell pl.index = .ok cell) : pl.frame = cell := by
  rw [frame, h]

def Routine.HasFrame (frame : Option Int64) : Routine → Prop
  | .program _ => True
  | .subroutine sub => ∀ cell, MemoryMap.frameCell sub.index = .ok cell → frame = some cell

namespace Setting

/-- The code that a line begins with and the number of values that it leaves on the stack. -/
inductive Lead (s : Setting) (S : Site → Prop) : Nat → Line → Prop
  | empty : Lead s S 0 []
  | assign {a : Assignment} {code : Line} : (∀ x ∈ a.sites, S x) → s.assignment a = .ok code →
      Lead s S 0 code
  | call {c : Call} {code : Line} : (∀ x ∈ c.sites, S x) → s.call c = .ok code → Lead s S 0 code
  | value {e : Expression} {code : Line} : (∀ x ∈ e.sites, S x) →
      s.expression false e = .ok code → Lead s S 1 code
  | result {e : Expression} {code : Line} {cell : Int64} : (∀ x ∈ e.sites, S x) →
      s.expression false e = .ok code → Lead s S 0 (code ++ instr .stvg [cell])
  | copied {sub : Subroutine} {code : Line} : s.copyResult sub = .ok code → Lead s S 0 code
  | startup {first : List Line} {line : Line} : s.startup = .ok first → line ∈ first →
      Lead s S 0 line

/-- How line `k` of a routine is left, and the number of values that this takes from the stack.
Control goes to the lines of the routine, which are its `own`, or gives back its `frame`. -/
inductive Ending (own : Nat → Prop) (frame : Option Int64) (k : Nat) : Nat → Line → Prop
  | fall : own (k + 1) → Ending own frame k 0 []
  | jump {target : Nat} : own target → target < UInt64.size →
      Ending own frame k 0 (jumpTo target)
  | branch {target : Nat} : own target → target < UInt64.size → own (k + 1) →
      Ending own frame k 1 (unlessJumpTo target)
  | halt : Ending own frame k 0 (instr .halt [])
  | release {cell : Int64} : frame = some cell →
      Ending own frame k 0 (instr .memr [cell] ++ instr .retn [])

def Regular (s : Setting) (S : Site → Prop) (own : Nat → Prop) (frame : Option Int64) (k : Nat)
    (line : Line) : Prop :=
  ∃ n lead ending, line = lead ++ ending ∧ s.Lead S n lead ∧ Ending own frame k n ending

/-- What a line of a program is made of: it is regular, in the program or in a subroutine, or a
subroutine starts with it. -/
inductive Shape (s : Setting) (S : Site → Prop) (placed : List Placement) (size k : Nat)
    (line : Line) : Prop
  | free : Free placed size k → s.Regular S (Free placed size) none k line →
      Shape s S placed size k line
  | entry {sub : Subroutine} {pl : Placement} : sub ∈ s.map.subroutines → pl ∈ placed →
      pl.index = sub.index → k = pl.start → s.prologue sub = .ok line → Shape s S placed size k line
  | body {pl : Placement} : pl ∈ placed → pl.Own k →
      s.Regular S pl.Own (some pl.frame) k line → Shape s S placed size k line

variable {s : Setting} {S : Site → Prop} {own : Nat → Prop} {frame : Option Int64} {k : Nat}

theorem Regular.of_lead {code : Line} (hc : s.Lead S 0 code) (hnext : own (k + 1)) :
    s.Regular S own frame k code :=
  ⟨0, code, [], (List.append_nil code).symm, hc, .fall hnext⟩

theorem Regular.of_ending {line : Line} (h : Ending own frame k 0 line) :
    s.Regular S own frame k line := ⟨0, [], line, rfl, .empty, h⟩

theorem returnLine_regular {routine : Routine} (hf : routine.HasFrame frame)
    {value : Option Expression} {line : Line} (hx : ∀ e, value = some e → ∀ x ∈ e.sites, S x)
    (h : s.returnLine value routine = .ok line) : s.Regular S own frame k line := by
  cases routine with
  | program p =>
    cases h
    exact .of_ending .halt
  | subroutine sub =>
    obtain ⟨result, cell, hcell, rfl, hr⟩ := returnLine_subroutine_ok h
    refine ⟨0, result, _, rfl, ?_, .release (hf cell hcell)⟩
    rcases hr with hr | ⟨e, first, _, he, hfirst, _, rfl⟩
    · exact .copied hr
    · exact .result (hx e he) hfirst

theorem LineOf.regular {routine : Routine} (hf : routine.HasFrame frame) {lo hi : Nat} {line : Line}
    (h : s.LineOf routine S lo hi line) (hown : ∀ j, lo ≤ j → j ≤ hi → own j)
    (hnext : own (k + 1)) : s.Regular S own frame k line := by
  cases h with
  | assign hx h => exact .of_lead (.assign hx h) hnext
  | call hx h => exact .of_lead (.call hx h) hnext
  | test hx h ht =>
    exact ⟨1, _, _, rfl, .value hx h, .branch (hown _ ht.le ht.ge) ht.lt_size hnext⟩
  | skip ht => exact .of_ending (.jump (hown _ ht.le ht.ge) ht.lt_size)
  | change hx h ht =>
    exact ⟨0, _, _, rfl, .assign hx h, .jump (hown _ ht.le ht.ge) ht.lt_size⟩
  | ret hx h => exact returnLine_regular hf hx h

theorem epilogue_regular {sub : Subroutine} {line : Line} (h : s.epilogue sub = .ok line)
    (hf : Routine.HasFrame frame (.subroutine sub)) : s.Regular S own frame k line := by
  obtain ⟨result, cell, hr, hcell, rfl⟩ := epilogue_ok h
  exact ⟨0, result, _, rfl, .copied hr, .release (hf cell hcell)⟩

/-- **Every line of an assembly is a lead and an ending**, or the first one of a subroutine. -/
theorem Layout.shape {a : Assembly} {placed : List Placement} (layout : s.Layout S a placed)
    {line : Line} (hk : a.lines[k]? = some line) : s.Shape S placed a.lines.length k line := by
  cases layout.part k line hk with
  | startup hfirst hl hfree hnext => exact .free hfree (.of_lead (.startup hfirst hl) hnext)
  | skip hlt hfree ht => exact .free hfree (.of_ending (.jump ht hlt))
  | main h1 h2 hfree hline =>
    have noFrame : Routine.HasFrame none (.program s.map.program) := trivial
    exact .free (hfree k h1 (by omega)) (hline.regular noFrame hfree (hfree (k + 1) (by omega) h2))
  | halt hfree => exact .free hfree (.of_ending .halt)
  | @sub sub pl _ _ hsub hpl hindex hline =>
    have hin := layout.inside pl hpl
    have hframe : Routine.HasFrame (some pl.frame) (.subroutine sub) := by
      intro cell h
      rw [← hindex] at h
      rw [Placement.frame_eq h]
    have hown (j : Nat) (hj1 : pl.start + 1 ≤ j) (hj2 : j ≤ pl.stop - 1) : pl.Own j :=
      ⟨by omega, by omega⟩
    cases hline with
    | entry hentry => exact .entry hsub hpl hindex rfl hentry
    | body h1 h2 hbody =>
      exact .body hpl ⟨h1, by omega⟩
        (hbody.regular hframe hown (hown (k + 1) (by omega) (by omega)))
    | exit h1 hexit => exact .body hpl ⟨by omega, by omega⟩ (epilogue_regular hexit hframe)

end Setting

theorem StackLaw.lead {s : Setting} {S : Site → Prop} {P : Nat → Nat → Line → Prop}
    (law : StackLaw s P) (hS : ∀ x, S x → x.Meets s P) {n : Nat} {code : Line}
    (h : s.Lead S n code) : P 0 n code := by
  cases h with
  | empty => exact law.nil
  | assign hx h => exact law.assignment (fun x hm => hS x (hx x hm)) h
  | call hx h => exact law.call (fun x hm => hS x (hx x hm)) h
  | @value e _ hx h => exact law.expression e (fun x hm => hS x (hx x hm)) h
  | @result e _ _ hx h =>
    exact law.append (law.expression e (fun x hm => hS x (hx x hm)) h) (law.ordinary rfl rfl rfl)
  | copied h => exact law.copyResult h
  | startup hfirst hl => exact (law.startup hfirst code hl).1

theorem CodeLaw.lead {s : Setting} {S : Site → Prop} {P : Line → Prop} (law : CodeLaw s P)
    (hS : ∀ x, S x → x.Obeys P) {n : Nat} {code : Line} (h : s.Lead S n code) : P code :=
  law.stackLaw.lead (fun x hx => law.meets (hS x hx)) h

/-! ## Properties of whole lines -/

namespace Setting

variable {s : Setting} {S : Site → Prop} {P : Line → Prop}

/-- A property of all code that the instructions of control and of frames have too. -/
structure LineLaw (s : Setting) (P : Line → Prop) : Prop extends CodeLaw s P where
  control {op : Opcode} {operands : List Int64} : op.ordinary = false → op ≠ .subr → op ≠ .lstr →
    operands.length = op.operandCount → P (instr op operands)

theorem Ending.law (law : LineLaw s P) {own : Nat → Prop} {frame : Option Int64} {k n : Nat}
    {code : Line} (h : Ending own frame k n code) : P code := by
  cases h with
  | fall _ => exact law.nil
  | jump _ _ => exact law.control rfl (by decide) (by decide) rfl
  | branch _ _ _ => exact law.control rfl (by decide) (by decide) rfl
  | halt => exact law.control rfl (by decide) (by decide) rfl
  | release _ =>
    exact law.append (law.control rfl (by decide) (by decide) rfl)
      (law.control rfl (by decide) (by decide) rfl)

theorem Regular.law (law : LineLaw s P) (hS : ∀ x, S x → x.Obeys P) {own : Nat → Prop}
    {frame : Option Int64} {k : Nat} {line : Line} (h : s.Regular S own frame k line) : P line := by
  obtain ⟨n, lead, ending, rfl, hlead, hending⟩ := h
  exact law.append (law.toCodeLaw.lead hS hlead) (hending.law law)

theorem Layout.law {a : Assembly} {placed : List Placement} (layout : s.Layout S a placed)
    (law : LineLaw s P) (hS : ∀ x, S x → x.Obeys P) {k : Nat} {line : Line}
    (hk : a.lines[k]? = some line) : P line := by
  cases layout.shape hk with
  | free _ h => exact h.law law hS
  | body _ _ h => exact h.law law hS
  | entry _ _ _ _ hentry =>
    obtain ⟨cell, length, rest, _, rfl, hrest⟩ := law.toCodeLaw.prologue hentry
    exact law.append (law.control rfl (by decide) (by decide) rfl) hrest

end Setting

end TurtleCode
