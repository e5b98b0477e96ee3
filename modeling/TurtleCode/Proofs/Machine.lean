import TurtleCode.Pcode
import TurtleCode.Arithmetic

/-!
# A machine that follows control

How a linked program runs, as far as control goes: which instruction is next, and which calls are
open.  Conditions can turn out either way.  The machine also keeps a record of what was executed, in
all and by each open call, for statements about runs.

* `Point`, `Pcode.at?`, `Pcode.after`: a place in a program, the instruction there, and the place
  after it.
* `Control`, `Activation`: a state, and a call that has not returned.
* `Pcode.Step`, `Pcode.Reaches`: one instruction, and all that can be reached from the first line.
* `claimedFrames`: the frames that were claimed and not given back.
-/

namespace TurtleCode

def Address.ofOperand (n : Int64) : Nat := n.toUInt64.toNat

theorem Address.ofOperand_operand {n : Nat} (h : n < UInt64.size) :
    Address.ofOperand (Address.operand n) = n := by
  have e : (Int64.ofNat n).toUInt64 = UInt64.ofNat n := rfl
  rw [ofOperand, operand, e]
  exact UInt64.toNat_ofNat_of_lt h

/-- A place in a linked program: a line, and the number of instructions before it there. -/
structure Point where
  line : Nat
  pos : Nat
deriving DecidableEq

namespace Pcode

def instructionsOf (p : Pcode) (k : Nat) : List Instruction :=
  match p.lines[k]? with
  | some line =>
    match decode line with
    | .ok is => is
    | .error _ => []
  | none => []

def rest (p : Pcode) (x : Point) : List Instruction := (p.instructionsOf x.line).drop x.pos

def at? (p : Pcode) (x : Point) : Option Instruction := (p.rest x).head?

/-- The point just after the instruction at a point, which may be the first one of the next line. -/
def after (p : Pcode) (x : Point) : Point :=
  if (p.rest ⟨x.line, x.pos + 1⟩).isEmpty then ⟨x.line + 1, 0⟩ else ⟨x.line, x.pos + 1⟩

theorem rest_succ {p : Pcode} {x : Point} {i : Instruction} {is : List Instruction}
    (h : p.rest x = i :: is) : p.rest ⟨x.line, x.pos + 1⟩ = is := by
  unfold rest at h ⊢
  rw [← List.tail_drop, h, List.tail_cons]

theorem after_cases {p : Pcode} {x : Point} {i : Instruction} {is : List Instruction}
    (h : p.rest x = i :: is) :
    (is = [] ∧ p.after x = ⟨x.line + 1, 0⟩) ∨
      (is ≠ [] ∧ p.after x = ⟨x.line, x.pos + 1⟩ ∧ p.rest (p.after x) = is) := by
  have hnext := rest_succ h
  cases is with
  | nil =>
    refine .inl ⟨rfl, ?_⟩
    rw [after, hnext]
    rfl
  | cons j more =>
    have hafter : p.after x = ⟨x.line, x.pos + 1⟩ := by
      rw [after, hnext]
      rfl
    exact .inr ⟨List.cons_ne_nil _ _, hafter, hafter ▸ hnext⟩

theorem at?_eq_some {p : Pcode} {x : Point} {i : Instruction} (h : p.at? x = some i) :
    ∃ is, p.rest x = i :: is := by
  unfold at? at h
  cases hr : p.rest x with
  | nil =>
    rw [hr] at h
    cases h
  | cons j is =>
    rw [hr] at h
    obtain rfl := Option.some.inj h
    exact ⟨is, rfl⟩

theorem at?_eq_getElem? (p : Pcode) (k j : Nat) : p.at? ⟨k, j⟩ = (p.instructionsOf k)[j]? := by
  rw [at?, rest, List.head?_drop]

end Pcode

/-- A call that has not returned: the line called, the point just after the call, all that had been
executed when it was made, and what it has executed itself since, the latest first. -/
structure Activation where
  entry : Nat
  back : Point
  before : List Instruction
  executed : List Instruction

/-- A state: the next point, the open calls, the latest first, and all that was executed, the latest
first. -/
structure Control where
  point : Point
  calls : List Activation
  trace : List Instruction

def Control.log (m : Control) (i : Instruction) : List Activation :=
  match m.calls with
  | [] => []
  | c :: rest => { c with executed := i :: c.executed } :: rest

/-- Opcodes after which the next instruction need not be the one that follows. -/
def Opcode.transfers : Opcode → Bool
  | .jump | .ifno | .subr | .retn | .halt => true
  | _ => false

namespace Pcode

/-- Executing one instruction.  A halt is not followed by anything. -/
inductive Step (p : Pcode) (m : Control) : Control → Prop
  | along {i : Instruction} : p.at? m.point = some i → i.op.transfers = false →
      Step p m ⟨p.after m.point, m.log i, i :: m.trace⟩
  | jump {target : Int64} : p.at? m.point = some ⟨.jump, [target]⟩ →
      Step p m ⟨⟨Address.ofOperand target, 0⟩, m.log ⟨.jump, [target]⟩,
        ⟨.jump, [target]⟩ :: m.trace⟩
  | holds {target : Int64} : p.at? m.point = some ⟨.ifno, [target]⟩ →
      Step p m ⟨p.after m.point, m.log ⟨.ifno, [target]⟩, ⟨.ifno, [target]⟩ :: m.trace⟩
  | fails {target : Int64} : p.at? m.point = some ⟨.ifno, [target]⟩ →
      Step p m ⟨⟨Address.ofOperand target, 0⟩, m.log ⟨.ifno, [target]⟩,
        ⟨.ifno, [target]⟩ :: m.trace⟩
  | call {target : Int64} : p.at? m.point = some ⟨.subr, [target]⟩ →
      Step p m ⟨⟨Address.ofOperand target, 0⟩,
        ⟨Address.ofOperand target, p.after m.point, ⟨.subr, [target]⟩ :: m.trace, []⟩
          :: m.log ⟨.subr, [target]⟩,
        ⟨.subr, [target]⟩ :: m.trace⟩
  | back {c : Activation} {calls : List Activation} : p.at? m.point = some ⟨.retn, []⟩ →
      m.calls = c :: calls → Step p m ⟨c.back, calls, ⟨.retn, []⟩ :: m.trace⟩

inductive Reaches (p : Pcode) : Control → Prop
  | start : Reaches p ⟨⟨0, 0⟩, [], []⟩
  | step {m m' : Control} : Reaches p m → Step p m m' → Reaches p m'

/-! ## Running the machine -/

def step? (p : Pcode) (holds : Bool) (m : Control) : Option Control :=
  match p.at? m.point with
  | none => none
  | some i =>
    if i.op.transfers = false then some ⟨p.after m.point, m.log i, i :: m.trace⟩
    else
      match i.operands, m.calls with
      | [target], _ =>
        if i.op = .jump then some ⟨⟨Address.ofOperand target, 0⟩, m.log i, i :: m.trace⟩
        else if i.op = .ifno then
          some ⟨if holds then p.after m.point else ⟨Address.ofOperand target, 0⟩, m.log i,
            i :: m.trace⟩
        else if i.op = .subr then
          some ⟨⟨Address.ofOperand target, 0⟩,
            ⟨Address.ofOperand target, p.after m.point, i :: m.trace, []⟩ :: m.log i, i :: m.trace⟩
        else none
      | [], c :: calls => if i.op = .retn then some ⟨c.back, calls, i :: m.trace⟩ else none
      | _, _ => none

theorem step_of_step? {p : Pcode} {holds : Bool} {m m' : Control} (h : p.step? holds m = some m') :
    p.Step m m' := by
  unfold step? at h
  cases hat : p.at? m.point with
  | none =>
    rw [hat] at h
    cases h
  | some i =>
    obtain ⟨op, operands⟩ := i
    rw [hat] at h
    dsimp only at h
    by_cases htransfers : op.transfers = false
    · rw [if_pos htransfers] at h
      cases h
      exact .along hat htransfers
    rw [if_neg htransfers] at h
    match operands, hcalls : m.calls with
    | [target], _ =>
      by_cases hjump : op = .jump
      · subst hjump
        cases h
        exact .jump hat
      by_cases hifno : op = .ifno
      · subst hifno
        cases h
        cases holds with
        | true => exact .holds hat
        | false => exact .fails hat
      by_cases hsubr : op = .subr
      · subst hsubr
        cases h
        exact .call hat
      dsimp only at h
      rw [if_neg hjump, if_neg hifno, if_neg hsubr] at h
      cases h
    | [], c :: calls =>
      rw [hcalls] at h
      by_cases hretn : op = .retn
      · subst hretn
        cases h
        exact .back hat hcalls
      dsimp only at h
      rw [if_neg hretn] at h
      cases h
    | [], [] =>
      rw [hcalls] at h
      cases h
    | _ :: _ :: _, _ => cases h

/-- Executes instructions, the conditions turning out one after another as listed; there is one
entry for each instruction. -/
def follow? (p : Pcode) : List Bool → Control → Option Control
  | [], m => some m
  | holds :: more, m => (p.step? holds m).bind (p.follow? more)

theorem Reaches.follow {p : Pcode} : ∀ {choices : List Bool} {m m' : Control}, p.Reaches m →
    p.follow? choices m = some m' → p.Reaches m'
  | [], m, m', hm, h => by
    obtain rfl := Option.some.inj h
    exact hm
  | holds :: more, m, m', hm, h => by
    obtain ⟨next, hstep, h⟩ := Option.bind_eq_some_iff.mp h
    exact (hm.step (step_of_step? hstep)).follow h

end Pcode

/-- The cells of the frames that were claimed and not given back, after these instructions, the
latest first. -/
def claimedFrames : List Instruction → List Int64
  | [] => []
  | i :: earlier =>
    match i.op, i.operands with
    | .memc, cell :: _ => cell :: claimedFrames earlier
    | .memr, cell :: _ => (claimedFrames earlier).erase cell
    | _, _ => claimedFrames earlier

theorem claimedFrames_cons_of_ne {i : Instruction} (hc : i.op ≠ .memc) (hr : i.op ≠ .memr)
    (earlier : List Instruction) : claimedFrames (i :: earlier) = claimedFrames earlier := by
  rw [claimedFrames]
  split
  · next h _ => exact absurd h hc
  · next h _ => exact absurd h hr
  · rfl

end TurtleCode
