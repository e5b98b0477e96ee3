import Mathlib.Logic.Function.Basic
import TurtleCode.Proofs.Phrases

/-!
# A machine with memory and an operand stack

How a line runs that has no jumps and no calls.  Memory is cells of integers, addressed by integers.

* `Machine`: the meaning of the opcodes that is left open.  `Machine.exec` is one instruction,
  `Machine.run` several.
* `Line.instructions?` reads a line as instructions, `Machine.execute` runs it.
* `Machine.Runs` is the same said so that code can be put together: `Machine.Runs.append` and
  `Machine.Runs.instr`.  `Machine.execute_eq_some_iff`: both agree.
* `Machine.Pushes`: a line pushes a value and leaves memory as it is.

The opcodes that read and write memory, and the arithmetic on integers, mean what they are
documented to mean.  An opcode of which nothing is said here but its operands is any function of
these, and of memory.
-/

namespace TurtleCode

abbrev Memory := Int → Int

def Memory.zero (m : Memory) (start count : Int) : Memory :=
  fun k => if start ≤ k ∧ k < start + count then 0 else m k

/-- Memory, and the values on the operand stack, the top first. -/
structure MachineState where
  memory : Memory
  stack : List Int

/-- What is left open about a machine: the operators and conversions on one value and on two values,
where the string of a constant is put, and all that the remaining opcodes do.  Operators may look at
memory, as those on strings have to. -/
structure Machine where
  unary : Opcode → Memory → Int → Int
  binary : Opcode → Memory → Int → Int → Int
  text : Memory → List Int → Int
  other : Opcode → List Int64 → MachineState → Option MachineState

/-- A machine whose operators and conversions give their first operand. -/
def Machine.idle : Machine where
  unary := fun _ _ x => x
  binary := fun _ _ x _ => x
  text := fun _ _ => 0
  other := fun _ _ _ => none

namespace Opcode

def isUnary : Opcode → Bool
  | .neg | .not | .ctos | .itos | .sval | .inpt => true
  | _ => false

def isBinary : Opcode → Bool
  | .and | .or | .xor | .plus | .subt | .mult | .divr | .div | .mod
  | .eqal | .noeq | .less | .more | .lseq | .mreq
  | .scat | .seql | .sneq | .sles | .smor | .slse | .smre => true
  | _ => false

/-- Opcodes of memory and of counting, whose meaning is fixed. -/
def isFixed : Opcode → Bool
  | .ldin | .ldvg | .ldvv | .ldvr | .ldag | .ldav | .lstr | .stvg | .stvv | .stvr
  | .lptr | .sptr | .zptr | .test | .incr | .decr => true
  | _ => false

end Opcode

namespace Machine

def apply (M : Machine) (op : Opcode) (m : Memory) (x y : Int) : Int :=
  match op with
  | .plus => x + y
  | .subt => x - y
  | .mult => x * y
  | _ => M.binary op m x y

def exec (M : Machine) : Instruction → MachineState → Option MachineState
  | ⟨.ldin, [n]⟩, ⟨m, s⟩ => some ⟨m, n.toInt :: s⟩
  | ⟨.ldvg, [a]⟩, ⟨m, s⟩ => some ⟨m, m a.toInt :: s⟩
  | ⟨.ldvv, [f, o]⟩, ⟨m, s⟩ => some ⟨m, m (m f.toInt + o.toInt) :: s⟩
  | ⟨.ldvr, [f, o]⟩, ⟨m, s⟩ => some ⟨m, m (m (m f.toInt + o.toInt)) :: s⟩
  | ⟨.ldag, [a]⟩, ⟨m, s⟩ => some ⟨m, a.toInt :: s⟩
  | ⟨.ldav, [f, o]⟩, ⟨m, s⟩ => some ⟨m, (m f.toInt + o.toInt) :: s⟩
  | ⟨.lstr, n :: characters⟩, ⟨m, s⟩ =>
    if n = Int64.ofNat characters.length then some ⟨m, M.text m (characters.map (·.toInt)) :: s⟩
    else none
  | ⟨.stvg, [a]⟩, ⟨m, x :: s⟩ => some ⟨Function.update m a.toInt x, s⟩
  | ⟨.stvv, [f, o]⟩, ⟨m, x :: s⟩ => some ⟨Function.update m (m f.toInt + o.toInt) x, s⟩
  | ⟨.stvr, [f, o]⟩, ⟨m, x :: s⟩ => some ⟨Function.update m (m (m f.toInt + o.toInt)) x, s⟩
  | ⟨.lptr, []⟩, ⟨m, a :: s⟩ => some ⟨m, m a :: s⟩
  | ⟨.sptr, []⟩, ⟨m, a :: x :: s⟩ => some ⟨Function.update m a x, s⟩
  | ⟨.zptr, []⟩, ⟨m, n :: a :: s⟩ => some ⟨m.zero a n, s⟩
  | ⟨.test, []⟩, t => some t
  | ⟨.incr, []⟩, ⟨m, x :: s⟩ => some ⟨m, (x + 1) :: s⟩
  | ⟨.decr, []⟩, ⟨m, x :: s⟩ => some ⟨m, (x - 1) :: s⟩
  | ⟨op, operands⟩, ⟨m, s⟩ =>
    if op.isFixed then none
    else if op.isUnary then
      match s with
      | x :: s => some ⟨m, M.unary op m x :: s⟩
      | _ => none
    else if op.isBinary then
      match s with
      | y :: x :: s => some ⟨m, M.apply op m x y :: s⟩
      | _ => none
    else M.other op operands ⟨m, s⟩

def run (M : Machine) : List Instruction → MachineState → Option MachineState
  | [], t => some t
  | i :: rest, t => (M.exec i t).bind (M.run rest)

theorem exec_unary {M : Machine} {op : Opcode} (h : op.isUnary = true) (m : Memory) (x : Int)
    (s : List Int) : M.exec ⟨op, []⟩ ⟨m, x :: s⟩ = some ⟨m, M.unary op m x :: s⟩ := by
  cases op <;> first | rfl | cases h

theorem exec_binary {M : Machine} {op : Opcode} (h : op.isBinary = true) (m : Memory) (x y : Int)
    (s : List Int) : M.exec ⟨op, []⟩ ⟨m, y :: x :: s⟩ = some ⟨m, M.apply op m x y :: s⟩ := by
  cases op <;> first | rfl | cases h

theorem exec_lstr {M : Machine} (characters : List Int64) (m : Memory) (s : List Int) :
    M.exec ⟨.lstr, Int64.ofNat characters.length :: characters⟩ ⟨m, s⟩ =
      some ⟨m, M.text m (characters.map (·.toInt)) :: s⟩ := if_pos rfl

theorem run_append (M : Machine) (as bs : List Instruction) (t : MachineState) :
    M.run (as ++ bs) t = (M.run as t).bind (M.run bs) := by
  induction as generalizing t with
  | nil => rfl
  | cons i rest ih =>
    rw [List.cons_append, run, run]
    cases M.exec i t with
    | none => rfl
    | some t' => exact ih t'

end Machine

/-! ## Lines as instructions -/

namespace Line

/-- The integers that a line starts with, and the instructions after them. -/
def scan : Line → Option (List Int64 × List Instruction)
  | [] => some ([], [])
  | .int n :: rest => (scan rest).map fun (ns, is) => (n :: ns, is)
  | .op op :: rest => (scan rest).map fun (ns, is) => ([], ⟨op, ns⟩ :: is)
  | .call _ :: _ => none

/-- The instructions of a line that starts with an opcode and has no calls in it. -/
def instructions? (line : Line) : Option (List Instruction) :=
  match line.scan with
  | some ([], is) => some is
  | _ => none

theorem scan_ints (ns : List Int64) (line : Line) :
    scan (ns.map .int ++ line) = (scan line).map fun (ks, is) => (ns ++ ks, is) := by
  induction ns with
  | nil => cases h : scan line <;> simp [h]
  | cons n rest ih =>
    rw [List.map_cons, List.cons_append, scan, ih]
    cases scan line with
    | none => rfl
    | some found => rfl

theorem scan_words (is : List Instruction) :
    scan (is.flatMap Instruction.words) = some ([], is) := by
  induction is with
  | nil => rfl
  | cons i rest ih =>
    rw [List.flatMap_cons, Instruction.words, instr, List.cons_append, scan, scan_ints, ih]
    simp

theorem eq_of_scan : ∀ {line : Line} {ns : List Int64} {is : List Instruction},
    scan line = some (ns, is) → line = ns.map .int ++ is.flatMap Instruction.words := by
  intro line
  induction line with
  | nil =>
    intro ns is h
    cases h
    rfl
  | cons w rest ih =>
    intro ns is h
    cases w with
    | call index => cases h
    | int n =>
      obtain ⟨⟨ks, js⟩, hrest, he⟩ := Option.map_eq_some_iff.mp h
      cases he
      rw [ih hrest]
      rfl
    | op op =>
      obtain ⟨⟨ks, js⟩, hrest, he⟩ := Option.map_eq_some_iff.mp h
      cases he
      rw [ih hrest, List.flatMap_cons]
      rfl

theorem instructions?_eq_some_iff {line : Line} {is : List Instruction} :
    line.instructions? = some is ↔ line = is.flatMap Instruction.words := by
  unfold instructions?
  constructor
  · intro h
    split at h
    · next js hscan =>
      cases h
      exact eq_of_scan hscan
    · cases h
  · rintro rfl
    rw [scan_words]

end Line

/-! ## Running a line -/

namespace Machine

variable {M : Machine} {a b : Line} {t t' t'' : MachineState}

def execute (M : Machine) (line : Line) (t : MachineState) : Option MachineState :=
  line.instructions?.bind fun is => M.run is t

/-- A line is made of instructions that lead from one state to another. -/
def Runs (M : Machine) (line : Line) (t t' : MachineState) : Prop :=
  ∃ is, line = is.flatMap Instruction.words ∧ M.run is t = some t'

theorem execute_eq_some_iff : M.execute a t = some t' ↔ M.Runs a t t' := by
  unfold execute Runs
  rw [Option.bind_eq_some_iff]
  simp only [Line.instructions?_eq_some_iff]

namespace Runs

theorem nil : M.Runs [] t t := ⟨[], rfl, rfl⟩

theorem append (ha : M.Runs a t t') (hb : M.Runs b t' t'') : M.Runs (a ++ b) t t'' := by
  obtain ⟨as, rfl, hA⟩ := ha
  obtain ⟨bs, rfl, hB⟩ := hb
  refine ⟨as ++ bs, List.flatMap_append.symm, ?_⟩
  rw [run_append, hA]
  exact hB

theorem instr {op : Opcode} {operands : List Int64} (h : M.exec ⟨op, operands⟩ t = some t') :
    M.Runs (instr op operands) t t' := by
  refine ⟨[⟨op, operands⟩], by simp [Instruction.words], ?_⟩
  rw [run, h]
  rfl

end Runs

def Pushes (M : Machine) (m : Memory) (line : Line) (x : Int) : Prop :=
  ∀ st, M.Runs line ⟨m, st⟩ ⟨m, x :: st⟩

namespace Pushes

variable {m : Memory} {x y z : Int}

theorem instr {op : Opcode} {operands : List Int64}
    (h : ∀ st, M.exec ⟨op, operands⟩ ⟨m, st⟩ = some ⟨m, x :: st⟩) :
    M.Pushes m (instr op operands) x := fun st => .instr (h st)

theorem append (ha : M.Pushes m a x) (hb : ∀ st, M.Runs b ⟨m, x :: st⟩ ⟨m, y :: st⟩) :
    M.Pushes m (a ++ b) y := fun st => (ha st).append (hb st)

theorem append₂ {c : Line} (ha : M.Pushes m a x) (hb : M.Pushes m b y)
    (hc : ∀ st, M.Runs c ⟨m, y :: x :: st⟩ ⟨m, z :: st⟩) :
    M.Pushes m (a ++ b ++ c) z := fun st => ((ha st).append (hb (x :: st))).append (hc st)

end Pushes

end Machine

end TurtleCode
