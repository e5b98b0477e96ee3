import TurtleCode.Proofs.Machine
import TurtleCode.Proofs.StackMachine

/-!
# Running a program with its data

The machine that follows control, together with memory and the operand stack.  What an instruction
does to the data is left open, except for the few that a statement about results has to know: loads
and stores of single cells, giving a frame back, and returning.

* `Interpretation`: what instructions do to the data.  A stack machine gives one,
  `Machine.interpretation`.
* `Snapshot`, `Pcode.Moves`, `Pcode.Run`: control and data, one instruction, and a whole run with
  all that was passed through, the latest first.
* `Pcode.Reaches.backs`: a call that has not returned is returned to right after the instruction
  that made it.
* `Pcode.moves_back`, `Pcode.moves_load`: what can happen at a return and at a load.
* `Pcode.Run.previous`: how a run gets to a place inside a line.
-/

namespace TurtleCode

/-- What instructions can do to memory and the stack.  To give a frame back changes one cell at
most, the one that holds the frame. -/
structure Interpretation where
  does : Instruction → MachineState → MachineState → Prop
  load {cell : Int64} {x y : MachineState} :
    does ⟨.ldvg, [cell]⟩ x y ↔ y = ⟨x.memory, x.memory cell.toInt :: x.stack⟩
  store {cell : Int64} {x y : MachineState} : does ⟨.stvg, [cell]⟩ x y ↔
    ∃ value stack, x.stack = value :: stack ∧ y = ⟨Function.update x.memory cell.toInt value, stack⟩
  release {cell : Int64} {x y : MachineState} : does ⟨.memr, [cell]⟩ x y →
    ∀ k, k ≠ cell.toInt → y.memory k = x.memory k
  back {x y : MachineState} : does ⟨.retn, []⟩ x y ↔ y = x

structure Snapshot where
  control : Control
  data : MachineState

namespace Pcode

def Moves (q : Pcode) (E : Interpretation) (x y : Snapshot) : Prop :=
  q.Step x.control y.control ∧ ∃ i, q.at? x.control.point = some i ∧ E.does i x.data y.data

/-- The snapshots of a run from the first line on, with any data, the latest first. -/
inductive Run (q : Pcode) (E : Interpretation) : List Snapshot → Prop
  | start (data : MachineState) : Run q E [⟨⟨⟨0, 0⟩, [], []⟩, data⟩]
  | move {x y : Snapshot} {past : List Snapshot} : Run q E (x :: past) → q.Moves E x y →
      Run q E (y :: x :: past)

variable {q : Pcode} {E : Interpretation}

theorem Run.reaches {x : Snapshot} {past : List Snapshot} (h : q.Run E (x :: past)) :
    q.Reaches x.control := by
  generalize hl : x :: past = l at h
  induction h generalizing x past with
  | start data =>
    cases hl
    exact .start
  | move _ hmove ih =>
    cases hl
    exact (ih rfl).step hmove.1

/-! ## Where calls return to -/

/-- An open call was made by an instruction, and is returned to right after it. -/
def Backs (q : Pcode) (c : Activation) : Prop :=
  ∃ x target, q.at? x = some ⟨.subr, [target]⟩ ∧ c.entry = Address.ofOperand target ∧
    c.back = q.after x

theorem backs_of_log {m : Control} (hm : ∀ c ∈ m.calls, q.Backs c) (i : Instruction) :
    ∀ c ∈ m.log i, q.Backs c := by
  unfold Control.log
  cases hcalls : m.calls with
  | nil => simp
  | cons c rest =>
    rw [hcalls] at hm
    exact List.forall_mem_cons.mpr
      ⟨hm c List.mem_cons_self, fun d hd => hm d (List.mem_cons_of_mem _ hd)⟩

theorem Reaches.backs {m : Control} (hm : q.Reaches m) : ∀ c ∈ m.calls, q.Backs c := by
  induction hm with
  | start => simp
  | @step m m' _ hstep ih =>
    cases hstep with
    | along _ _ => exact backs_of_log ih _
    | jump _ => exact backs_of_log ih _
    | holds _ => exact backs_of_log ih _
    | fails _ => exact backs_of_log ih _
    | call hat => exact List.forall_mem_cons.mpr ⟨⟨m.point, _, hat, rfl, rfl⟩, backs_of_log ih _⟩
    | back _ hcalls =>
      rw [hcalls] at ih
      exact fun c hc => ih c (List.mem_cons_of_mem _ hc)

/-! ## What can happen next -/

theorem moves_back {u : Snapshot} {c : Activation} {calls : List Activation}
    (hat : q.at? u.control.point = some ⟨.retn, []⟩) (hcalls : u.control.calls = c :: calls)
    (y : Snapshot) :
    q.Moves E u y ↔ y = ⟨⟨c.back, calls, ⟨.retn, []⟩ :: u.control.trace⟩, u.data⟩ := by
  constructor
  · obtain ⟨control, data⟩ := y
    rintro ⟨hstep, i, hi, hdoes⟩
    obtain rfl := Option.some.inj (hat.symm.trans hi)
    obtain rfl := E.back.mp hdoes
    cases hstep with
    | along hi' ht =>
      obtain rfl := Option.some.inj (hat.symm.trans hi')
      cases ht
    | jump hi' | holds hi' | fails hi' | call hi' => cases hat.symm.trans hi'
    | back _ hcalls' =>
      obtain ⟨rfl, rfl⟩ := List.cons.inj (hcalls.symm.trans hcalls')
      rfl
  · rintro rfl
    exact ⟨.back hat hcalls, _, hat, E.back.mpr rfl⟩

theorem moves_load {u : Snapshot} {cell : Int64}
    (hat : q.at? u.control.point = some ⟨.ldvg, [cell]⟩) (y : Snapshot) :
    q.Moves E u y ↔ y = ⟨⟨q.after u.control.point, u.control.log ⟨.ldvg, [cell]⟩,
      ⟨.ldvg, [cell]⟩ :: u.control.trace⟩,
      ⟨u.data.memory, u.data.memory cell.toInt :: u.data.stack⟩⟩ := by
  constructor
  · obtain ⟨control, data⟩ := y
    rintro ⟨hstep, i, hi, hdoes⟩
    obtain rfl := Option.some.inj (hat.symm.trans hi)
    obtain rfl := E.load.mp hdoes
    cases hstep with
    | along hi' _ =>
      obtain rfl := Option.some.inj (hat.symm.trans hi')
      rfl
    | jump hi' | holds hi' | fails hi' | call hi' | back hi' _ => cases hat.symm.trans hi'
  · rintro rfl
    exact ⟨.along hat rfl, _, hat, E.load.mpr rfl⟩

/-! ## How a run gets to a place -/

theorem eq_of_after {x : Point} {k j : Nat} (h : q.after x = ⟨k, j + 1⟩) : x = ⟨k, j⟩ := by
  unfold after at h
  split at h
  · cases h
  · cases h
    rfl

/-- Inside a line, control comes from the instruction before, unless that is a call. -/
theorem Run.previous {y : Snapshot} {past : List Snapshot} (h : q.Run E (y :: past)) {k j : Nat}
    (hy : y.control.point = ⟨k, j + 1⟩) {i : Instruction} (hat : q.at? ⟨k, j⟩ = some i)
    (hi : i.op ≠ .subr) :
    ∃ x older, past = x :: older ∧ x.control.point = ⟨k, j⟩ ∧ q.Run E (x :: older) ∧
      E.does i x.data y.data := by
  cases h with
  | start data => cases hy
  | @move x _ older hrun hmove =>
    obtain ⟨hstep, i', hat', hdoes⟩ := hmove
    have hx : x.control.point = ⟨k, j⟩ := by
      generalize hm : y.control = m at hstep hy
      cases hstep with
      | along _ _ => exact eq_of_after hy
      | holds _ => exact eq_of_after hy
      | jump _ => cases hy
      | fails _ => cases hy
      | call _ => cases hy
      | back _ hcalls =>
        -- the place returned to is right after a call
        obtain ⟨w, target, hw, _, hback⟩ := hrun.reaches.backs _ (hcalls ▸ List.mem_cons_self)
        obtain rfl := eq_of_after (hback.symm.trans hy)
        obtain rfl := Option.some.inj (hat.symm.trans hw)
        exact absurd rfl hi
    rw [hx] at hat'
    obtain rfl := Option.some.inj (hat.symm.trans hat')
    exact ⟨x, older, rfl, hx, hrun, hdoes⟩

end Pcode

/-! ## Stack machines -/

namespace Machine

variable {M : Machine} {q : Pcode}

/-- A machine on which to give a frame back changes one cell at most, and to return nothing. -/
structure Proper (M : Machine) : Prop where
  release {cell : Int64} {x y : MachineState} : M.exec ⟨.memr, [cell]⟩ x = some y →
    ∀ k, k ≠ cell.toInt → y.memory k = x.memory k
  back (x : MachineState) : M.exec ⟨.retn, []⟩ x = some x

def interpretation (M : Machine) (h : M.Proper) : Interpretation where
  does i x y := M.exec i x = some y
  load {cell x y} := by
    have hexec : M.exec ⟨.ldvg, [cell]⟩ x = some ⟨x.memory, x.memory cell.toInt :: x.stack⟩ := rfl
    rw [hexec, Option.some.injEq, eq_comm]
  store {cell x y} := by
    obtain ⟨memory, stack⟩ := x
    cases stack with
    | nil =>
      have hexec : M.exec ⟨.stvg, [cell]⟩ ⟨memory, []⟩ = none := rfl
      simp [hexec]
    | cons value stack =>
      have hexec : M.exec ⟨.stvg, [cell]⟩ ⟨memory, value :: stack⟩ =
          some ⟨Function.update memory cell.toInt value, stack⟩ := rfl
      rw [hexec, Option.some.injEq]
      constructor
      · exact fun he => ⟨value, stack, rfl, he.symm⟩
      · rintro ⟨_, _, he, rfl⟩
        cases he
        rfl
  release hexec := h.release hexec
  back {x y} := by rw [h.back, Option.some.injEq, eq_comm]

/-- Executes one instruction; a condition fails if it is zero. -/
def move? (M : Machine) (q : Pcode) (x : Snapshot) : Option Snapshot :=
  (q.at? x.control.point).bind fun i =>
    (q.step? (x.data.stack.headD 0 != 0) x.control).bind fun control =>
      (M.exec i x.data).map fun data => ⟨control, data⟩

def history? (M : Machine) (q : Pcode) : Nat → List Snapshot → Option (List Snapshot)
  | 0, past => some past
  | _ + 1, [] => none
  | n + 1, x :: past => (M.move? q x).bind fun y => M.history? q n (y :: x :: past)

theorem run_history (h : M.Proper) : ∀ {n : Nat} {past later : List Snapshot},
    q.Run (M.interpretation h) past → M.history? q n past = some later →
      q.Run (M.interpretation h) later
  | 0, _, _, hrun, hn => by
    cases hn
    exact hrun
  | _ + 1, [], _, hrun, hn => by cases hn
  | n + 1, x :: past, later, hrun, hn => by
    obtain ⟨y, hy, hn⟩ := Option.bind_eq_some_iff.mp hn
    obtain ⟨i, hat, hy⟩ := Option.bind_eq_some_iff.mp hy
    obtain ⟨control, hstep, hy⟩ := Option.bind_eq_some_iff.mp hy
    obtain ⟨data, hexec, rfl⟩ := Option.map_eq_some_iff.mp hy
    have hmove : q.Moves (M.interpretation h) x ⟨control, data⟩ :=
      ⟨Pcode.step_of_step? hstep, i, hat, hexec⟩
    exact run_history h (hrun.move hmove) hn

end Machine

end TurtleCode
