import TurtleCode.Proofs.Emission
import TurtleCode.Proofs.Sites

/-!
# Code and the operand stack

A piece of code takes values from the operand stack and leaves others in their place.  Code is built
from single instructions by appending, so a property of code that follows these numbers holds of all
that is emitted once it holds of the pieces.

* `StackEffect`, `Opcode.effect?`: the values that an instruction takes and leaves.
* `StackLaw s P`: `P n m` is a property of code that takes `n` values and leaves `m`.  It holds of
  ordinary instructions and is kept by appending.
* `StackLaw.expression`, `StackLaw.assignment`, `StackLaw.prologue` and so on conclude `P` of whole
  code with the right numbers: one value more for an expression, none for an assignment, and as many
  taken as there are parameters by the line that a subroutine starts with.

The instructions of frames, jumps and string constants are not ordinary: a property may tell them
apart, so nothing is said here of lines that hold them.
-/

namespace TurtleCode

/-- How many values something needs on the operand stack, and how many are there in their place
after it. -/
structure StackEffect where
  takes : Nat
  leaves : Nat
deriving DecidableEq

namespace Opcode

/-- The effect of the opcodes that code is made of.  All others are found in native code only. -/
def effect? : Opcode → Option StackEffect
  | .ldin | .ldvg | .ldvv | .ldvr | .ldag | .ldav | .lstr => some ⟨0, 1⟩
  | .stvg | .stvv | .stvr | .ifno => some ⟨1, 0⟩
  | .sptr | .cstr | .zptr | .reso => some ⟨2, 0⟩
  | .canv => some ⟨4, 0⟩
  | .test => some ⟨2, 2⟩
  | .and | .or | .xor | .plus | .subt | .mult | .divr | .div | .mod
  | .eqal | .noeq | .less | .more | .lseq | .mreq
  | .scat | .seql | .sneq | .sles | .smor | .slse | .smre => some ⟨2, 1⟩
  | .not | .neg | .incr | .decr | .ctos | .itos | .sval | .lptr | .inpt | .bufr => some ⟨1, 1⟩
  | .jump | .halt | .subr | .retn | .memc | .memr | .hclr => some ⟨0, 0⟩
  | _ => none

/-- Opcodes that neither move control nor handle frames nor clear the heap nor are followed by a
string. -/
def ordinary : Opcode → Bool
  | .jump | .ifno | .halt | .subr | .retn | .memc | .memr | .hclr | .lstr => false
  | _ => true

end Opcode

/-- A property of code that takes and leaves numbers of values.  It holds of ordinary instructions,
and code can be put after code that leaves what it takes.  What is further down on the stack does
not matter. -/
structure StackLaw (s : Setting) (P : Nat → Nat → Line → Prop) : Prop where
  nil : P 0 0 []
  append {n m k : Nat} {a b : Line} : P n m a → P m k b → P n k (a ++ b)
  above {n m : Nat} {a : Line} (k : Nat) : P n m a → P (k + n) (k + m) a
  ordinary {op : Opcode} {operands : List Int64} {n m : Nat} : op.ordinary = true →
    operands.length = op.operandCount → op.effect? = some ⟨n, m⟩ → P n m (instr op operands)

/-- What a site has to be like where the tree decides what is written out: constants are one value,
operators have the operands they need, and a call takes the arguments that are passed and leaves one
value in an expression and none as a statement. -/
def Site.Meets (s : Setting) (P : Nat → Nat → Line → Prop) : Site → Prop
  | .node (.literal value _) => P 0 1 value.code
  | .node (.constant _ value _) => P 0 1 value.code
  | .node (.unary operator _ _) => P 1 1 (instr operator.opcode [])
  | .node (.binary operator _ _ _) => ∀ onStrings, P 2 1 (operator.code onStrings)
  | .node (.call callee arguments _) => ∀ flags fetched,
      s.passing callee arguments.length = .ok flags → s.fetchResult callee = .ok fetched →
      P (min flags.length arguments.length) 1 (callee.code ++ fetched)
  | .call ⟨callee, arguments⟩ => ∀ flags, s.passing callee arguments.length = .ok flags →
      P (min flags.length arguments.length) 0 callee.code
  | _ => True

theorem Subroutine.length_parameterSlots (sub : Subroutine) :
    sub.parameterSlots.length = sub.parameters.length := by
  have key (l : List Variable) (i : Nat) :
      ((l.zipIdx i).filter fun entry => entry.1.parameter).length =
        (l.filter (·.parameter)).length := by
    induction l generalizing i with
    | nil => rfl
    | cons v rest ih =>
      rw [List.zipIdx_cons, List.filter_cons, List.filter_cons]
      split
      · rw [List.length_cons, List.length_cons, ih]
      · exact ih _
  exact key sub.declarations 0

namespace StackLaw

variable {s : Setting} {P : Nat → Nat → Line → Prop} {code : Line}

theorem skip (law : StackLaw s P) (n : Nat) : P n n [] := law.above n law.nil

/-! ### Variables, operators and indexes -/

theorem instr₀ (law : StackLaw s P) {op : Opcode} {n m : Nat} (h : op.ordinary = true)
    (hc : op.operandCount = 0) (he : op.effect? = some ⟨n, m⟩) : P n m (instr op []) :=
  law.ordinary h (by simp [hc]) he

theorem push (law : StackLaw s P) (n : Int64) : P 0 1 (instr .ldin [n]) := law.ordinary rfl rfl rfl

theorem load (law : StackLaw s P) {id : VariableId} (h : s.load id = .ok code) : P 0 1 code := by
  rcases Setting.load_cases h with ⟨a, rfl⟩ | ⟨f, o, rfl⟩ | ⟨f, o, rfl⟩ | ⟨a, rfl⟩ | ⟨f, o, rfl⟩
  · exact law.ordinary rfl rfl rfl
  · exact law.ordinary rfl rfl rfl
  · exact law.ordinary rfl rfl rfl
  · exact law.append (law.ordinary rfl rfl rfl) (law.instr₀ rfl rfl rfl)
  · exact law.append (law.ordinary rfl rfl rfl) (law.instr₀ rfl rfl rfl)

theorem store (law : StackLaw s P) {id : VariableId} (h : s.store id = .ok code) : P 1 0 code := by
  rcases Setting.store_cases h with ⟨a, rfl⟩ | ⟨f, o, rfl⟩ | ⟨f, o, rfl⟩ | ⟨a, rfl⟩ | ⟨f, o, rfl⟩
  · exact law.ordinary rfl rfl rfl
  · exact law.ordinary rfl rfl rfl
  · exact law.ordinary rfl rfl rfl
  · exact law.append (law.above 1 (n := 0) (m := 1) (law.ordinary rfl rfl rfl))
      (law.instr₀ rfl rfl rfl)
  · exact law.append (law.above 1 (n := 0) (m := 1) (law.ordinary rfl rfl rfl))
      (law.instr₀ rfl rfl rfl)

theorem addressOf (law : StackLaw s P) {id : VariableId} (h : s.addressOf id = .ok code) :
    P 0 1 code := by
  rcases Setting.addressOf_cases h with ⟨a, rfl⟩ | ⟨f, o, rfl⟩ | ⟨a, rfl⟩ | ⟨f, o, rfl⟩
  all_goals exact law.ordinary rfl rfl rfl

theorem conversion (law : StackLaw s P) {source target : Ty}
    (h : source.conversion target = .ok code) : P 1 1 code := by
  rcases Ty.conversion_cases h with rfl | ⟨op, hop, rfl⟩
  · exact law.skip 1
  · simp only [List.mem_cons, List.not_mem_nil, or_false] at hop
    rcases hop with rfl | rfl | rfl
    all_goals exact law.instr₀ rfl rfl rfl

theorem stepCode (law : StackLaw s P) {operator : Operator} (h : operator.stepCode? = some code) :
    P 1 1 code := by
  unfold Operator.stepCode? at h
  split at h
  · cases h; exact law.instr₀ rfl rfl rfl
  · cases h; exact law.instr₀ rfl rfl rfl
  · cases h

theorem fromOrigin (law : StackLaw s P) (origin : Int64) : P 1 1 (fromOrigin origin) := by
  unfold TurtleCode.fromOrigin
  split
  · exact law.skip 1
  · split
    · exact law.instr₀ rfl rfl rfl
    · exact law.append (law.above 1 (law.push _)) (law.instr₀ rfl rfl rfl)

theorem select (law : StackLaw s P) {v : Variable} {depth : Nat} (h : s.select v depth = .ok code) :
    P 2 1 code := by
  have first (origin : Int64) : P 2 2 (TurtleCode.fromOrigin origin) :=
    law.above 1 (law.fromOrigin origin)
  have plus : P 2 1 (instr .plus []) := law.instr₀ rfl rfl rfl
  unfold Setting.select at h
  split at h
  · next bounds _ =>
    obtain ⟨each, _, h⟩ := Result.bind_eq_ok.mp h
    obtain rfl := Result.pure_eq_ok.mp h
    have test : P 2 2 (if s.options.checkRanges then instr .test [] else []) := by
      split
      · exact law.instr₀ rfl rfl rfl
      · exact law.skip 2
    have scale : P 2 2 (if each = 1 then [] else instr .ldin [each] ++ instr .mult []) := by
      split
      · exact law.skip 2
      · exact law.append (law.above 2 (law.push _))
          (law.above 1 (n := 2) (m := 1) (law.instr₀ rfl rfl rfl))
    exact law.append (law.append (law.append (law.append (first _) test) scale) plus)
      (law.instr₀ rfl rfl rfl)
  · split at h
    · obtain rfl := Result.pure_eq_ok.mp h
      exact law.append (law.append (law.append (first _) plus) (law.above 1 (law.push _))) plus
    · cases h

/-! ### Expressions -/

mutual

theorem expression (law : StackLaw s P) {byReference : Bool} {code : Line} :
    ∀ (e : Expression), (∀ x ∈ e.sites, x.Meets s P) → s.expression byReference e = .ok code →
      P 0 1 code
  | .literal value ty, hx, h => by
    obtain ⟨_, rfl⟩ := Setting.expression_literal_ok h
    rw [Expression.sites] at hx
    exact hx _ List.mem_cons_self
  | .input name index ty, _, h => by
    obtain ⟨_, rfl⟩ := Setting.expression_input_ok h
    exact law.append (law.push _) (law.instr₀ rfl rfl rfl)
  | .constant name value ty, hx, h => by
    obtain ⟨_, rfl⟩ := Setting.expression_constant_ok h
    rw [Expression.sites] at hx
    exact hx _ List.mem_cons_self
  | .colour name value ty, _, h => by
    obtain ⟨_, rfl⟩ := Setting.expression_colour_ok h
    exact law.push _
  | .var id indexes ty, hx, h => by
    rcases Setting.expression_var_ok h with
      ⟨_, _, h⟩ | ⟨_, _, h⟩ | ⟨_, v, pointer, steps, _, hp, hst, rfl⟩
    · exact law.addressOf h
    · exact law.load h
    · rw [Expression.sites] at hx
      have hsteps := law.steps indexes (fun x hm => hx x (List.mem_cons_of_mem _ hm)) hst
      refine law.append (law.append (law.load hp) hsteps) ?_
      split
      · exact law.skip 1
      · exact law.instr₀ rfl rfl rfl
  | .address id ty, _, h => law.addressOf (Setting.expression_address_ok h).2
  | .call callee arguments ty, hx, h => by
    obtain ⟨_, flags, values, fetched, hf, hv, hr, rfl⟩ := Setting.expression_call_ok h
    rw [Expression.sites] at hx
    have hargs := law.arguments arguments (fun x hm => hx x (List.mem_cons_of_mem _ hm)) hv
    have hcall := hx _ List.mem_cons_self flags fetched hf hr
    rw [List.append_assoc]
    exact law.append hargs hcall
  | .unary operator operand ty, hx, h => by
    obtain ⟨_, value, hv, rfl⟩ := Setting.expression_unary_ok h
    rw [Expression.sites] at hx
    have hoperator : P 1 1 (instr operator.opcode []) := hx _ List.mem_cons_self
    exact law.append (law.expression operand (fun x hm => hx x (List.mem_cons_of_mem _ hm)) hv)
      hoperator
  | .binary operator left right ty, hx, h => by
    obtain ⟨_, first, hl, h⟩ := Setting.expression_binary_ok h
    rw [Expression.sites] at hx
    have hfirst := law.expression left
      (fun x hm => hx x (List.mem_cons_of_mem _ (List.mem_append_left _ hm))) hl
    rcases h with ⟨step, hstep, _, _, rfl⟩ | ⟨second, hr, rfl⟩
    · exact law.append hfirst (law.stepCode hstep)
    · have hsecond := law.expression right
        (fun x hm => hx x (List.mem_cons_of_mem _ (List.mem_append_right _ hm))) hr
      have hoperator := hx _ List.mem_cons_self (left.ty.isStringlike || right.ty.isStringlike)
      exact law.append (law.append hfirst (law.above 1 hsecond)) hoperator
  | .cast operand ty, hx, h => by
    obtain ⟨_, value, conversion, hv, hcv, rfl⟩ := Setting.expression_cast_ok h
    rw [Expression.sites] at hx
    exact law.append (law.expression operand (fun x hm => hx x (List.mem_cons_of_mem _ hm)) hv)
      (law.conversion hcv)

theorem steps (law : StackLaw s P) {v : Variable} {depth : Nat} {code : Line} :
    ∀ (indexes : List Expression), (∀ x ∈ Expression.allSites indexes, x.Meets s P) →
      s.steps v depth indexes = .ok code → P 1 1 code
  | [], _, h => by
    rw [Setting.steps] at h
    cases h
    exact law.skip 1
  | index :: rest, hx, h => by
    obtain ⟨value, selection, more, hv, hsel, hm, rfl⟩ := Setting.steps_cons_ok h
    rw [Expression.allSites] at hx
    have hvalue := law.expression index (fun x hm => hx x (List.mem_append_left _ hm)) hv
    have hmore := law.steps rest (fun x hm => hx x (List.mem_append_right _ hm)) hm
    have hpointer : P 1 1 (if depth = 0 then [] else instr .lptr []) := by
      split
      · exact law.skip 1
      · exact law.instr₀ rfl rfl rfl
    exact law.append (law.append (law.append hpointer (law.above 1 hvalue)) (law.select hsel)) hmore

theorem arguments (law : StackLaw s P) {flags : List Bool} {code : Line} :
    ∀ (arguments : List Expression), (∀ x ∈ Expression.allSites arguments, x.Meets s P) →
      s.arguments flags arguments = .ok code → P 0 (min flags.length arguments.length) code
  | [], _, h => by
    rw [Setting.arguments] at h
    cases h
    rw [List.length_nil, Nat.min_zero]
    exact law.nil
  | argument :: rest, hx, h => by
    cases flags with
    | nil =>
      rw [Setting.arguments] at h
      cases h
      rw [List.length_nil, Nat.zero_min]
      exact law.nil
    | cons flag flags =>
      obtain ⟨value, more, hv, hm, rfl⟩ := Setting.arguments_cons_ok h
      rw [Expression.allSites] at hx
      have hvalue := law.expression argument (fun x hm => hx x (List.mem_append_left _ hm)) hv
      have hmore := law.arguments rest (fun x hm => hx x (List.mem_append_right _ hm)) hm
      rw [List.length_cons, List.length_cons, Nat.add_min_add_right, Nat.add_comm]
      exact law.append hvalue (law.above 1 hmore)

end

/-! ### Statements and frames -/

theorem element (law : StackLaw s P) {id : VariableId} {indexes : List Expression}
    (hx : ∀ x ∈ Expression.allSites indexes, x.Meets s P) (h : s.element id indexes = .ok code) :
    P 0 1 code := by
  obtain ⟨v, pointer, steps, _, hp, hst, rfl⟩ := Setting.element_ok h
  exact law.append (law.load hp) (law.steps indexes hx hst)

theorem call (law : StackLaw s P) {c : Call} (hx : ∀ x ∈ c.sites, x.Meets s P)
    (h : s.call c = .ok code) : P 0 0 code := by
  obtain ⟨flags, values, hf, hv, rfl⟩ := Setting.call_ok h
  obtain ⟨callee, arguments⟩ := c
  exact law.append (law.arguments arguments (fun x hm => hx x (List.mem_cons_of_mem _ hm)) hv)
    (hx _ List.mem_cons_self flags hf)

theorem assignment (law : StackLaw s P) {a : Assignment} (hx : ∀ x ∈ a.sites, x.Meets s P)
    (h : s.assignment a = .ok code) : P 0 0 code := by
  obtain ⟨value, tail, hv, rfl, ht⟩ := Setting.assignment_ok h
  have hvalue := law.expression a.value (fun x hm => hx x (List.mem_append_left _ hm)) hv
  have hindexes : ∀ x ∈ Expression.allSites a.indexes, x.Meets s P :=
    fun x hm => hx x (List.mem_append_right _ hm)
  refine law.append hvalue ?_
  rcases ht with ⟨pointer, hp, rfl⟩ | hs | ⟨address, ha, _, rfl⟩ | ⟨address, ha, _, rfl⟩
  · exact law.append (law.above 1 (law.load hp)) (law.instr₀ rfl rfl rfl)
  · exact law.store hs
  · exact law.append (law.above 1 (law.element hindexes ha))
      (law.append (law.above 1 (law.instr₀ rfl rfl rfl)) (law.instr₀ rfl rfl rfl))
  · exact law.append (law.above 1 (law.element hindexes ha)) (law.instr₀ rfl rfl rfl)

theorem copyResult (law : StackLaw s P) {sub : Subroutine} (h : s.copyResult sub = .ok code) :
    P 0 0 code := by
  rcases Setting.copyResult_ok h with rfl | ⟨id, value, cell, hv, _, rfl⟩
  · exact law.nil
  · exact law.append (law.load hv) (law.ordinary rfl rfl rfl)

theorem receiveAll (law : StackLaw s P) {routine : UInt64} :
    ∀ {parameters : List (Variable × Nat)} {code : Line},
      s.receiveAll routine parameters = .ok code → P parameters.length 0 code
  | [], code, h => by
    cases h
    exact law.nil
  | (v, slot) :: rest, code, h => by
    rw [Setting.receiveAll] at h
    simp only [Result.bind_eq_ok, Result.pure_eq_ok] at h
    obtain ⟨here, hh, more, hm, rfl⟩ := h
    have hone : P 1 0 here := by
      rcases Setting.receive_ok hh with ⟨pointer, hp, rfl⟩ | ⟨f, o, rfl⟩
      · exact law.append (law.above 1 (law.load hp)) (law.instr₀ rfl rfl rfl)
      · exact law.ordinary rfl rfl rfl
    exact law.append (law.above rest.length hone) (law.receiveAll hm)

theorem regionStore (law : StackLaw s P) (region : Region) (cell : Int64) :
    P 1 0 (region.store cell) := by
  cases region <;> exact law.ordinary rfl rfl rfl

theorem regionAddress (law : StackLaw s P) (region : Region) (cell : Int64) :
    P 0 1 (region.address cell) := by
  cases region <;> exact law.ordinary rfl rfl rfl

theorem elements (law : StackLaw s P) {each : Int64 → Result Line} {start length : Int64}
    (he : ∀ {cell code}, each cell = .ok code → P 0 0 code) :
    ∀ {count : Nat} {i : Int64} {code : Line},
      Region.elements each start length i count = .ok code → P 0 0 code := by
  intro count
  induction count with
  | zero =>
    intro i code h
    cases h
    exact law.nil
  | succ count ih =>
    intro i code h
    rw [Region.elements] at h
    simp only [Result.bind_eq_ok, Result.pure_eq_ok] at h
    obtain ⟨_, _, _, _, _, _, here, hh, more, hm, rfl⟩ := h
    exact law.append (he hh) (ih hm)

theorem headersOver (law : StackLaw s P) (region : Region) (v : Variable) (zeroed : Bool) :
    ∀ {dimensions : List Bounds} {start : Int64} {code : Line},
      region.headersOver v zeroed dimensions start = .ok code → P 0 0 code := by
  intro dimensions
  have fixed (start next n : Int64) : P 0 0 (region.address next ++ region.store start
      ++ instr .ldin [n] ++ region.store next) :=
    law.append (law.append (law.append (law.regionAddress region next)
      (law.regionStore region start)) (law.push n)) (law.regionStore region next)
  induction dimensions with
  | nil =>
    intro start code h
    rw [Region.headersOver] at h
    obtain ⟨next, _, h⟩ := Result.bind_eq_ok.mp h
    dsimp only at h
    split at h
    · obtain rfl := Result.pure_eq_ok.mp h
      exact fixed _ _ _
    · simp only [Result.bind_eq_ok, Result.pure_eq_ok] at h
      obtain ⟨second, _, rfl⟩ := h
      exact law.append (law.append (fixed _ _ _) (law.push 0)) (law.regionStore region second)
  | cons bounds inner ih =>
    intro start code h
    rw [Region.headersOver] at h
    simp only [Result.bind_eq_ok] at h
    obtain ⟨next, _, count, _, h⟩ := h
    split at h
    · obtain rfl := Result.pure_eq_ok.mp h
      exact fixed _ _ _
    · simp only [Result.bind_eq_ok, Result.pure_eq_ok] at h
      obtain ⟨length, _, nested, hn, rfl⟩ := h
      exact law.append (fixed _ _ _) (law.elements ih hn)

theorem allHeaders (law : StackLaw s P) (region : Region) (zeroed : Bool)
    (wanted : Variable → Bool) : ∀ {declarations : List Variable} {cell : Int64} {code : Line},
      region.allHeaders zeroed wanted cell declarations = .ok code → P 0 0 code := by
  intro declarations
  induction declarations with
  | nil =>
    intro cell code h
    cases h
    exact law.nil
  | cons v rest ih =>
    intro cell code h
    rw [Region.allHeaders] at h
    split at h
    · simp only [Result.bind_eq_ok, Result.pure_eq_ok] at h
      obtain ⟨here, hh, length, _, _, _, more, hm, rfl⟩ := h
      exact law.append (law.headersOver region v zeroed hh) (ih hm)
    · simp only [Result.bind_eq_ok, Result.pure_eq_ok] at h
      obtain ⟨here, hh, length, _, _, _, more, hm, rfl⟩ := h
      obtain rfl := Except.ok.inj hh
      exact law.append law.nil (ih hm)

/-! ### The lines that start a subroutine and a program -/

/-- A subroutine starts by claiming its frame.  The rest of its first line takes the arguments. -/
theorem prologue (law : StackLaw s P) {sub : Subroutine} (h : s.prologue sub = .ok code) :
    ∃ pointer length rest, MemoryMap.frameCell sub.index = .ok pointer ∧
      code = instr .memc [pointer, length] ++ rest ∧ P sub.parameters.length 0 rest := by
  obtain ⟨pointer, length, headers, received, hp, _, hh, hr, rfl⟩ := Setting.prologue_ok h
  rw [Setting.claimFrame, List.append_assoc, List.append_assoc]
  refine ⟨pointer, length, _, hp, rfl, ?_⟩
  have hreceived := law.receiveAll hr
  rw [List.length_reverse, Subroutine.length_parameterSlots] at hreceived
  refine law.append ?_ (law.append (law.above _ (law.allHeaders _ _ _ hh)) hreceived)
  split
  · exact law.above _ (n := 0) (m := 0) (law.append (law.append (law.ordinary rfl rfl rfl)
      (law.above 1 (law.push _))) (law.instr₀ rfl rfl rfl))
  · exact law.skip _

theorem setTurtle (law : StackLaw s P) {base : Int64} :
    ∀ {properties : List (TurtleProperty × Int64)} {code : Line},
      s.setTurtle base properties = .ok code → P 0 0 code := by
  intro properties
  induction properties with
  | nil =>
    intro code h
    cases h
    exact law.nil
  | cons entry rest ih =>
    intro code h
    rw [Setting.setTurtle] at h
    simp only [Result.bind_eq_ok, Result.pure_eq_ok] at h
    obtain ⟨stored, hs, more, hm, rfl⟩ := h
    refine law.append (law.append (law.push _) ?_) (ih hm)
    rcases Setting.turtle_cases hs with ⟨cell, rfl⟩ | ⟨f, o, rfl⟩
    · exact law.ordinary rfl rfl rfl
    · exact law.ordinary rfl rfl rfl

theorem setCanvas (law : StackLaw s P) (size : Int64) : P 0 0 (Setting.setCanvas size) := by
  have four :
      P 0 4 (instr .ldin [0] ++ instr .ldin [0] ++ instr .ldin [size] ++ instr .ldin [size]) :=
    law.append (law.append (law.append (law.push 0) (law.above 1 (law.push 0)))
      (law.above 2 (law.push size))) (law.above 3 (law.push size))
  exact law.append (law.append (law.append (law.append four (law.instr₀ rfl rfl rfl))
    (law.push size)) (law.above 1 (law.push size))) (law.instr₀ rfl rfl rfl)

theorem startup (law : StackLaw s P) {first : List Line} (h : s.startup = .ok first) :
    ∀ line ∈ first, P 0 0 line ∧ line ≠ [] := by
  obtain ⟨base, properties, cell, headers, hp, hh, rfl⟩ := Setting.startup_ok h
  intro line hl
  rcases List.mem_cons.mp hl with rfl | hl
  · refine ⟨law.append (law.append (law.append (law.append (law.push _)
      (law.ordinary rfl rfl rfl)) (law.setTurtle hp)) (law.setCanvas _)) ?_, List.cons_ne_nil _ _⟩
    split
    · exact law.append (law.append (law.push _) (law.instr₀ rfl rfl rfl)) (law.ordinary rfl rfl rfl)
    · exact law.nil
  · split at hl
    · cases hl
    · next hne =>
      obtain rfl := List.mem_singleton.mp hl
      exact ⟨law.allHeaders _ _ _ hh, fun he => hne (List.isEmpty_iff.mpr he)⟩

end StackLaw

end TurtleCode
