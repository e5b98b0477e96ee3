import Mathlib.Data.List.Forall2
import TurtleCode.Proofs.MemoryMap

/-!
# Code under different options

Code that checks its indexes or reaches the turtle through its pointer is the same code as without,
up to two local changes: words are put in, and single accesses are spelt in another way.  Here any
setting is held against a bare one, in which nothing is checked and the properties of the turtle are
globals.

* `Result.Both R`: two computations that succeed with results in `R`, or fail with one fault.
* `Line.Alike base`: a line, and the bare line it stands for.  Alike lines are the same once
  `Line.settled`, and have the same `Line.targets`.
* `Setting.expression_alike`, `Setting.statements_alike`: all code of a setting is alike that of the
  bare one, provided the globals have a place.
-/

namespace TurtleCode

/-! ## Computations side by side -/

/-- Two computations that both succeed, with results in `R`, or that fail with the same fault. -/
inductive Result.Both {α β : Type} (R : α → β → Prop) : Result α → Result β → Prop
  | ok {a : α} {b : β} : R a b → Both R (.ok a) (.ok b)
  | error (fault : Fault) : Both R (.error fault) (.error fault)

/-- Two computations that both succeed, or that fail with the same fault. -/
abbrev Result.Agree {α β : Type} (x : Result α) (y : Result β) : Prop :=
  Result.Both (fun _ _ => True) x y

namespace Result.Both

variable {α β γ δ : Type} {R : α → β → Prop} {S : γ → δ → Prop}

theorem refl {R : α → α → Prop} (h : ∀ a, R a a) (x : Result α) : Both R x x := by
  cases x with
  | error fault => exact .error fault
  | ok a => exact .ok (h a)

theorem imp {R' : α → β → Prop} {x : Result α} {y : Result β} (h : Both R x y)
    (hR : ∀ a b, R a b → R' a b) : Both R' x y := by
  cases h with
  | ok h => exact .ok (hR _ _ h)
  | error fault => exact .error fault

theorem bind {x : Result α} {y : Result β} {f : α → Result γ} {g : β → Result δ} (h : Both R x y)
    (hf : ∀ a b, R a b → Both S (f a) (g b)) : Both S (x >>= f) (y >>= g) := by
  cases h with
  | ok h => exact hf _ _ h
  | error fault => exact .error fault

theorem bind_eq {x : Result α} {y : Result β} {f : α → Result γ} {g : β → Result γ}
    (h : Both R x y) (hf : ∀ a b, R a b → f a = g b) : (x >>= f) = (y >>= g) := by
  cases h with
  | ok h => exact hf _ _ h
  | error _ => rfl

/-- What came out is known in the steps that follow. -/
theorem and_eq {x : Result α} {y : Result β} (h : Both R x y) :
    Both (fun a b => R a b ∧ x = .ok a ∧ y = .ok b) x y := by
  cases h with
  | ok h => exact .ok ⟨h, rfl, rfl⟩
  | error fault => exact .error fault

theorem bind_same {x : Result α} {f : α → Result γ} {g : α → Result δ}
    (hf : ∀ a, x = .ok a → Both S (f a) (g a)) : Both S (x >>= f) (x >>= g) := by
  cases x with
  | error fault => exact .error fault
  | ok a => exact hf a rfl

theorem bind_of_eq {x : Result α} {a : α} {f : α → Result γ} {g : α → Result δ} (hx : x = .ok a)
    (h : Both S (f a) (g a)) : Both S (x >>= f) (x >>= g) := by
  subst hx
  exact h

theorem of_common {x : Result α} {y : Result γ} {z : Result β} {R' : γ → β → Prop}
    {T : α → γ → Prop} (hx : Both R x z) (hy : Both R' y z)
    (h : ∀ a c b, R a b → R' c b → T a c) : Both T x y := by
  cases hx with
  | ok hx =>
    cases hy with
    | ok hy => exact .ok (h _ _ _ hx hy)
  | error fault =>
    cases hy with
    | error _ => exact .error fault

end Result.Both

/-! ## Lines side by side -/

/-- The instruction on a cell that an instruction on a cell behind a pointer amounts to. -/
def Opcode.direct? : Opcode → Option Opcode
  | .ldvv => some .ldvg
  | .stvv => some .stvg
  | .ldav => some .ldag
  | _ => none

theorem Opcode.direct?_eq_some {indirect direct : Opcode} (h : indirect.direct? = some direct) :
    Word.op indirect ≠ .op .test ∧ Word.op direct ≠ .op .test ∧ direct.direct? = none := by
  cases indirect <;> cases h <;> decide

/-- A line, and the line it amounts to if nothing is checked and the properties of the turtle, which
is at `base`, are addressed as globals.  Native code can be any words, so a check has to stand
before an opcode: leaving it out must not put operands behind another one. -/
inductive Line.Alike (base : Int64) : Line → Line → Prop
  | nil : Alike base [] []
  | word (w : Word) {a b : Line} : Alike base a b → Alike base (w :: a) (w :: b)
  | turtle {indirect direct : Opcode} (offset : Int64) {a b : Line} :
      indirect.direct? = some direct → Alike base a b →
      Alike base (.op indirect :: .int MemoryMap.turtlePointer :: .int offset :: a)
        (.op direct :: .int (base + offset) :: b)
  | check {op : Opcode} {a b : Line} : Alike base a (.op op :: b) →
      Alike base (.op .test :: a) (.op op :: b)

namespace Line

def settle (base : Int64) (w : Word) (rest : Line) : Line :=
  match w, rest with
  | .op op, .int pointer :: .int offset :: rest' =>
    match op.direct? with
    | some direct =>
      if pointer = MemoryMap.turtlePointer then .op direct :: .int (base + offset) :: rest'
      else w :: rest
    | none => w :: rest
  | _, _ => w :: rest

/-- A line without its checks, and with every access through the turtle pointer turned into one of
a cell. -/
def settled (base : Int64) (line : Line) : Line :=
  -- from the right: when an opcode is reached its operands stand in front of the rest
  (line.filter fun w => decide (w ≠ .op .test)).foldr (settle base) []

theorem settle_turtle {base : Int64} {indirect direct : Opcode} (h : indirect.direct? = some direct)
    (offset : Int64) (rest : Line) :
    settle base (.op indirect) (.int MemoryMap.turtlePointer :: .int offset :: rest) =
      .op direct :: .int (base + offset) :: rest := by
  simp only [settle, h, if_true]

theorem settle_of_direct?_eq_none {base : Int64} {op : Opcode} (h : op.direct? = none)
    (rest : Line) : settle base (.op op) rest = .op op :: rest := by
  unfold settle
  split
  · next heq => cases heq; rw [h]
  · rfl

theorem settled_cons {base : Int64} {w : Word} (h : w ≠ .op .test) (rest : Line) :
    settled base (w :: rest) = settle base w (settled base rest) := by
  unfold settled
  rw [List.filter_cons_of_pos (by simpa using h), List.foldr_cons]

def operand? : Line → Option Word
  | .int n :: _ => some (.int n)
  | .call index :: _ => some (.call index)
  | _ => none

def targets : Line → List (Opcode × Option Word)
  | [] => []
  | .op op :: rest =>
    if op.takesAddress then (op, operand? rest) :: targets rest else targets rest
  | _ :: rest => targets rest

theorem targets_eq_nil {line : Line} (h : ∀ op ∈ line.opcodes, op.takesAddress = false) :
    line.targets = [] := by
  induction line with
  | nil => rfl
  | cons w rest ih =>
    cases w with
    | op code =>
      have hcode : code.takesAddress = false := h code List.mem_cons_self
      rw [targets, hcode]
      exact ih fun op hop => h op (List.mem_cons_of_mem _ hop)
    | int n => exact ih h
    | call index => exact ih h

namespace Alike

variable {base : Int64} {a b c d : Line}

theorem refl (line : Line) : Alike base line line := by
  induction line with
  | nil => exact .nil
  | cons w rest ih => exact .word w ih

theorem append (h : Alike base a b) (h' : Alike base c d) : Alike base (a ++ c) (b ++ d) := by
  induction h with
  | nil => exact h'
  | word w _ ih => exact .word w ih
  | turtle offset hop _ ih => exact .turtle offset hop ih
  | check _ ih => exact .check ih

theorem append_right (h : Alike base a b) (line : Line) : Alike base (a ++ line) (b ++ line) :=
  h.append (.refl line)

theorem append_left (line : Line) (h : Alike base a b) : Alike base (line ++ a) (line ++ b) :=
  (refl line).append h

theorem unchecked (checked : Bool) (op : Opcode) (rest : Line) :
    Alike base ((if checked then instr .test [] else []) ++ .op op :: rest) (.op op :: rest) := by
  cases checked with
  | false => exact .refl _
  | true => exact .check (.refl _)

theorem settled_eq (h : Alike base a b) : a.settled base = b.settled base := by
  induction h with
  | nil => rfl
  | word w _ ih =>
    by_cases hw : w = .op .test
    · subst hw
      exact ih
    · rw [settled_cons hw, settled_cons hw, ih]
  | @turtle indirect direct offset a b hop _ ih =>
    -- the access on the left is turned into the one on the right, which is left as it is
    obtain ⟨hindirect, hdirect, hnone⟩ := Opcode.direct?_eq_some hop
    have hint (n : Int64) : Word.int n ≠ .op .test := Word.noConfusion
    rw [settled_cons hindirect, settled_cons (hint _), settled_cons (hint _), settled_cons hdirect,
      settled_cons (hint _), settle_of_direct?_eq_none hnone, ih]
    exact settle_turtle hop offset _
  | check _ ih => exact ih

example : settled 2 (instr .ldvv [0, 1] ++ instr .test [] ++ instr .ldvv [3, 1]) =
    instr .ldvg [3] ++ instr .ldvv [3, 1] := by decide

theorem operand?_eq (h : Alike base a b) : a.operand? = b.operand? := by
  cases h with
  | nil => rfl
  | word w _ => cases w <;> rfl
  | turtle _ _ _ => rfl
  | check _ => rfl

theorem targets_eq (h : Alike base a b) : a.targets = b.targets := by
  induction h with
  | nil => rfl
  | word w hab ih =>
    cases w with
    | op code => rw [targets, targets, hab.operand?_eq, ih]
    | int n => exact ih
    | call index => exact ih
  | @turtle indirect direct offset a b hop _ ih =>
    cases indirect <;> cases hop <;> exact ih
  | check _ ih => exact ih

end Alike

end Line

/-! ## Access to variables -/

/-- The turtle is at `base`, and what follows it has a cell too. -/
structure MemoryMap.Roomy (m : MemoryMap) (base : Int64) : Prop where
  turtle : m.turtleBase = .ok base
  globals : base.toInt + 7 ≤ Int64.maxValue.toInt

namespace MemoryMap

variable {m : MemoryMap} {base : Int64}

theorem exists_roomy {cell : Int64} (h : m.globalsBase = .ok cell) :
    ∃ base, m.Roomy base := by
  obtain ⟨base, hbase, hcell⟩ := Result.bind_eq_ok.mp h
  have hseven : cell.toInt = base.toInt + 7 := Cell.add_eq_ok.mp hcell
  refine ⟨base, hbase, ?_⟩
  rw [← hseven]
  exact Int.le_of_lt_add_one cell.toInt_lt

theorem Roomy.location (room : m.Roomy base) {id : VariableId} {b offset : Int64}
    (h : m.location id = .ok (.turtle b offset)) :
    b = base ∧ ∃ property : TurtleProperty, offset = property.offset := by
  unfold MemoryMap.location at h
  obtain ⟨v, _, h⟩ := Result.bind_eq_ok.mp h
  split at h
  · next property _ =>
    rw [room.turtle] at h
    cases h
    exact ⟨rfl, property, rfl⟩
  · simp only [Result.bind_eq_ok] at h
    obtain ⟨routine, _, o, _, h⟩ := h
    split at h
    · simp only [Result.bind_eq_ok, Result.pure_eq_ok] at h
      obtain ⟨_, _, _, _, h⟩ := h
      cases h
    · simp only [Result.bind_eq_ok, Result.pure_eq_ok] at h
      obtain ⟨_, _, h⟩ := h
      cases h

end MemoryMap

namespace Setting

open Result (Both)
open Line (Alike)

/-- The setting in which nothing is checked and the properties of the turtle are globals. -/
def bare (m : MemoryMap) (clearLocals : Bool) : Setting :=
  ⟨m, { turtleAsGlobals := true, clearLocals := clearLocals, checkRanges := false }⟩

variable {s : Setting} {base : Int64} {clear : Bool}

theorem turtle_alike (room : s.map.Roomy base) {direct indirect : Opcode}
    (h : indirect.direct? = some direct) (property : TurtleProperty) :
    Both (Alike base) (s.turtle direct indirect base property.offset)
      ((bare s.map clear).turtle direct indirect base property.offset) := by
  have hdirect : (do return instr direct [← Cell.add base property.offset]) =
      (.ok (instr direct [base + property.offset]) : Result Line) := by
    rw [property.add_offset room.globals]
    rfl
  show Both _ _ (do return instr direct [← Cell.add base property.offset])
  unfold turtle
  rw [hdirect]
  split
  · exact .ok (.refl _)
  · exact .ok (.turtle _ h .nil)

/-- Code that depends on where a variable is can differ for the properties of the turtle only. -/
theorem access_alike (room : s.map.Roomy base) (id : VariableId)
    {f g : Variable → Location → Result Line}
    (hturtle : ∀ v (property : TurtleProperty), Both (Alike base)
      (f v (.turtle base property.offset)) (g v (.turtle base property.offset)))
    (hglobal : ∀ v cell, f v (.global cell) = g v (.global cell))
    (hframe : ∀ v pointer offset, f v (.frame pointer offset) = g v (.frame pointer offset)) :
    Both (Alike base) (do f (← s.map.declared id) (← s.map.location id))
      (do g (← s.map.declared id) (← s.map.location id)) := by
  refine .bind_same ?_
  intro v _
  refine .bind_same ?_
  intro place hplace
  cases place with
  | turtle b offset =>
    obtain ⟨rfl, property, rfl⟩ := room.location hplace
    exact hturtle v property
  | global cell => exact hglobal v cell ▸ .refl Alike.refl _
  | frame pointer offset => exact hframe v pointer offset ▸ .refl Alike.refl _

theorem load_alike (room : s.map.Roomy base) (id : VariableId) :
    Both (Alike base) (s.load id) ((bare s.map clear).load id) :=
  access_alike room id (fun _ => turtle_alike room rfl) (fun v _ => by cases v.kind <;> rfl)
    fun v _ _ => by cases v.kind <;> rfl

theorem store_alike (room : s.map.Roomy base) (id : VariableId) :
    Both (Alike base) (s.store id) ((bare s.map clear).store id) :=
  access_alike room id (fun _ => turtle_alike room rfl) (fun v _ => by cases v.kind <;> rfl)
    fun v _ _ => by cases v.kind <;> rfl

theorem addressOf_alike (room : s.map.Roomy base) (id : VariableId) :
    Both (Alike base) (s.addressOf id) ((bare s.map clear).addressOf id) :=
  access_alike room id (fun _ => turtle_alike room rfl) (fun v _ => by cases v.kind <;> rfl)
    fun v _ _ => by cases v.kind <;> rfl

/-! ## Expressions -/

theorem select_alike (base : Int64) (v : Variable) (depth : Nat) :
    Both (Alike base) (s.select v depth) ((bare s.map clear).select v depth) := by
  unfold select
  split
  · refine .bind_same ?_
    intro each _
    refine .ok ?_
    simp only [List.append_assoc]
    refine .append_left _ ?_
    by_cases heach : each = 1
    · rw [if_pos heach]
      exact Alike.unchecked _ _ _
    · rw [if_neg heach]
      exact Alike.unchecked _ _ _
  · exact .refl Alike.refl _

mutual

theorem expression_alike (room : s.map.Roomy base) : ∀ (e : Expression) (byReference : Bool),
    Both (Alike base) (s.expression byReference e) ((bare s.map clear).expression byReference e)
  | .var id indexes ty, byReference => by
    rw [expression, expression]
    split
    · split
      · exact addressOf_alike room id
      · exact load_alike room id
    · refine .bind_same ?_
      intro v _
      refine .bind (load_alike room id) ?_
      intro pointer pointer' hpointer
      refine .bind (steps_alike room indexes v 0) ?_
      intro steps steps' hsteps
      exact .ok ((hpointer.append hsteps).append_right _)
  | .literal _ _, _ | .input _ _ _, _ | .constant _ _ _, _ | .colour _ _ _, _ => by
    rw [expression, expression]
    exact .refl Alike.refl _
  | .address id ty, byReference => by
    rw [expression, expression]
    split
    · exact .error _
    · exact addressOf_alike room id
  | .call callee arguments ty, byReference => by
    rw [expression, expression]
    split
    · exact .error _
    · refine .bind_same ?_
      intro flags _
      refine .bind (arguments_alike room arguments flags) ?_
      intro values values' hvalues
      refine .bind_same ?_
      intro fetched _
      exact .ok ((hvalues.append_right _).append_right _)
  | .unary operator operand ty, byReference => by
    rw [expression, expression]
    split
    · exact .error _
    · refine .bind (expression_alike room operand false) ?_
      intro code code' hcode
      exact .ok (hcode.append_right _)
  | .binary operator left right ty, byReference => by
    rw [expression, expression]
    split
    · exact .error _
    · refine .bind (expression_alike room left false) ?_
      intro first first' hfirst
      dsimp only
      split
      · exact .ok (hfirst.append_right _)
      · refine .bind (expression_alike room right false) ?_
        intro second second' hsecond
        exact .ok ((hfirst.append hsecond).append_right _)
  | .cast operand ty, byReference => by
    rw [expression, expression]
    split
    · exact .error _
    · refine .bind (expression_alike room operand false) ?_
      intro code code' hcode
      refine .bind_same ?_
      intro conversion _
      exact .ok (hcode.append_right _)

theorem steps_alike (room : s.map.Roomy base) :
    ∀ (indexes : List Expression) (v : Variable) (depth : Nat),
    Both (Alike base) (s.steps v depth indexes) ((bare s.map clear).steps v depth indexes)
  | [], v, depth => by
    rw [steps, steps]
    exact .ok .nil
  | index :: rest, v, depth => by
    rw [steps, steps]
    refine .bind (expression_alike room index false) ?_
    intro value value' hvalue
    refine .bind (select_alike base v depth) ?_
    intro selection selection' hselection
    refine .bind (steps_alike room rest v (depth + 1)) ?_
    intro more more' hmore
    exact .ok (((Alike.append_left _ hvalue).append hselection).append hmore)

theorem arguments_alike (room : s.map.Roomy base) :
    ∀ (arguments : List Expression) (flags : List Bool),
    Both (Alike base) (s.arguments flags arguments) ((bare s.map clear).arguments flags arguments)
  | [], flags => by
    rw [arguments, arguments]
    exact .ok .nil
  | argument :: rest, [] => by
    rw [arguments, arguments]
    exact .ok .nil
  | argument :: rest, flag :: flags => by
    rw [arguments, arguments]
    refine .bind (expression_alike room argument flag) ?_
    intro value value' hvalue
    refine .bind (arguments_alike room rest flags) ?_
    intro more more' hmore
    exact .ok (hvalue.append hmore)

end

theorem element_alike (room : s.map.Roomy base) (id : VariableId) (indexes : List Expression) :
    Both (Alike base) (s.element id indexes) ((bare s.map clear).element id indexes) := by
  refine .bind_same ?_
  intro v _
  refine .bind (load_alike room id) ?_
  intro pointer pointer' hpointer
  refine .bind (steps_alike room indexes v 0) ?_
  intro steps steps' hsteps
  exact .ok (hpointer.append hsteps)

theorem call_alike (room : s.map.Roomy base) (c : Call) :
    Both (Alike base) (s.call c) ((bare s.map clear).call c) := by
  refine .bind_same ?_
  intro flags _
  refine .bind (arguments_alike room c.arguments flags) ?_
  intro values values' hvalues
  exact .ok (hvalues.append_right _)

/-! ## Statements -/

theorem assignment_alike (room : s.map.Roomy base) (a : Assignment) :
    Both (Alike base) (s.assignment a) ((bare s.map clear).assignment a) := by
  refine .bind_same ?_
  intro v _
  refine .bind (expression_alike room a.value false) ?_
  intro value value' hvalue
  dsimp only
  split
  · split
    · refine .bind (load_alike room a.target) ?_
      intro pushed pushed' hload
      exact .ok ((hvalue.append hload).append_right _)
    · refine .bind (store_alike room a.target) ?_
      intro popped popped' hstore
      exact .ok (hvalue.append hstore)
  · refine .bind (element_alike room a.target a.indexes) ?_
    intro address address' haddress
    exact .ok ((hvalue.append haddress).append_right _)

theorem copyResult_alike (room : s.map.Roomy base) (sub : Subroutine) :
    Both (Alike base) (s.copyResult sub) ((bare s.map clear).copyResult sub) := by
  refine .bind_same ?_
  intro cell _
  split
  · refine .bind (load_alike room _) ?_
    intro value value' hvalue
    exact .ok (hvalue.append_right _)
  · exact .ok .nil

theorem epilogue_alike (room : s.map.Roomy base) (sub : Subroutine) :
    Both (Alike base) (s.epilogue sub) ((bare s.map clear).epilogue sub) := by
  refine .bind (copyResult_alike room sub) ?_
  intro result result' hresult
  refine .bind_same ?_
  intro released _
  exact .ok (hresult.append_right _)

theorem returnLine_alike (room : s.map.Roomy base) (value : Option Expression) (routine : Routine) :
    Both (Alike base) (s.returnLine value routine)
      ((bare s.map clear).returnLine value routine) := by
  cases routine with
  | program p => exact .ok (.refl _)
  | subroutine sub =>
    unfold returnLine
    refine .bind_same ?_
    intro cell _
    have release {a b : Line} (h : Alike base a b) : Both (Alike base)
        (do return a ++ (← releaseFrame sub)) (do return b ++ (← releaseFrame sub)) :=
      .bind_same fun released _ => .ok (h.append_right _)
    split
    · refine .bind (expression_alike room _ false) ?_
      intro code code' hcode
      exact release (hcode.append_right _)
    · refine .bind (copyResult_alike room sub) ?_
      intro result result' hresult
      exact release hresult

mutual

theorem statement_alike (room : s.map.Roomy base) (routine : Routine) :
    ∀ (st : Statement) (start : Nat), Both (List.Forall₂ (Alike base))
      (s.statement routine start st) ((bare s.map clear).statement routine start st)
  | .assign a, start => by
    rw [statement, statement]
    refine .bind (assignment_alike room a) ?_
    intro line line' h
    exact .ok (.cons h .nil)
  | .call c, start => by
    rw [statement, statement]
    refine .bind (call_alike room c) ?_
    intro line line' h
    exact .ok (.cons h .nil)
  | .ifElse condition thenBody elseBody, start => by
    rw [statement, statement]
    refine .bind (expression_alike room condition false) ?_
    intro test test' htest
    refine .bind_same ?_
    intro thenStart _
    refine .bind (statements_alike room routine thenBody thenStart) ?_
    intro thenLines thenLines' hthen
    -- addresses depend on the lines before them through their number only
    rw [hthen.length_eq]
    refine .bind_same ?_
    intro afterThen _
    split
    · exact .ok (.cons (htest.append_right _) hthen)
    · refine .bind_same ?_
      intro elseStart _
      refine .bind (statements_alike room routine elseBody elseStart) ?_
      intro elseLines elseLines' helse
      rw [helse.length_eq]
      refine .bind_same ?_
      intro afterElse _
      exact .ok (List.rel_append (.cons (htest.append_right _) hthen) (.cons (.refl _) helse))
  | .whileDo condition body, start => by
    rw [statement, statement]
    refine .bind (expression_alike room condition false) ?_
    intro test test' htest
    refine .bind_same ?_
    intro bodyStart _
    refine .bind (statements_alike room routine body bodyStart) ?_
    intro lines lines' hbody
    rw [hbody.length_eq]
    refine .bind_same ?_
    intro bodyStop _
    refine .bind_same ?_
    intro after _
    exact .ok (List.rel_append (.cons (htest.append_right _) hbody) (.cons (.refl _) .nil))
  | .repeatUntil condition body, start => by
    rw [statement, statement]
    refine .bind (statements_alike room routine body start) ?_
    intro lines lines' hbody
    refine .bind (expression_alike room condition false) ?_
    intro test test' htest
    exact .ok (List.rel_append hbody (.cons (htest.append_right _) .nil))
  | .forLoop initial condition change body, start => by
    rw [statement, statement]
    refine .bind (assignment_alike room initial) ?_
    intro first first' hfirst
    refine .bind_same ?_
    intro testAddress _
    refine .bind (expression_alike room condition false) ?_
    intro test test' htest
    refine .bind_same ?_
    intro bodyStart _
    refine .bind (statements_alike room routine body bodyStart) ?_
    intro lines lines' hbody
    rw [hbody.length_eq]
    refine .bind_same ?_
    intro bodyStop _
    refine .bind_same ?_
    intro after _
    refine .bind (assignment_alike room change) ?_
    intro step step' hstep
    exact .ok (.cons hfirst (List.rel_append (.cons (htest.append_right _) hbody)
      (.cons (hstep.append_right _) .nil)))
  | .ret value, start => by
    rw [statement, statement]
    refine .bind (returnLine_alike room value routine) ?_
    intro line line' h
    exact .ok (.cons h .nil)
  | .pass, start => by
    rw [statement, statement]
    exact .ok .nil

/-- Statements become as many lines, and each line is alike. -/
theorem statements_alike (room : s.map.Roomy base) (routine : Routine) :
    ∀ (ss : List Statement) (start : Nat), Both (List.Forall₂ (Alike base))
      (s.statements routine start ss) ((bare s.map clear).statements routine start ss)
  | [], start => by
    rw [statements, statements]
    exact .ok .nil
  | head :: rest, start => by
    rw [statements, statements]
    refine .bind_same ?_
    intro here _
    refine .bind (statement_alike room routine head here) ?_
    intro here here' hhead
    rw [hhead.length_eq]
    refine .bind (statements_alike room routine rest _) ?_
    intro more more' hrest
    exact .ok (List.rel_append hhead hrest)

end

end Setting

end TurtleCode
