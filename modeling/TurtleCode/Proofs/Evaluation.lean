import Mathlib.Data.List.Forall2
import TurtleCode.Proofs.MemoryMap
import TurtleCode.Proofs.StackMachine

/-!
# The value of an expression

What an expression without calls is worth in a memory, and that its code computes just this.

* `Setting.value?`: the value, by recursion on the expression.  A variable is its cell, or what the
  address in it leads to (`Setting.content?`); an element is the cell that its indexes lead to
  (`Setting.reach?`).
* `Expression.Evaluable`: there are no calls, and operators have the operands that they take.
* `Setting.load_pushes`, `Setting.select_runs`, `Setting.steps_reach`: what the code of a variable,
  of an index and of several indexes does.  `Setting.expression_pushes`: that of an expression.
* `expression_value`: the code of an expression pushes its value and leaves memory as it is.
-/

namespace TurtleCode

/-! ## Values -/

def Literal.value (M : Machine) (m : Memory) : Literal → Int
  | .integer n => n.toInt
  | .boolean b => if b then -1 else 0
  | .character c => c.toNat
  | .string t => M.text m (t.toList.map fun c => (c.toNat : Int))

def Ty.converted? (M : Machine) (m : Memory) (source target : Ty) (x : Int) : Option Int :=
  match source, target with
  | .character, .string => some (M.unary .ctos m x)
  | .integer, .string => some (M.unary .itos m x)
  | .string, .integer => some (M.unary .sval m x)
  | _, _ => if source = target then some x else none

/-- The opcode that an operator means on operands of given types. -/
def Operator.opcodeOn (operator : Operator) (left right : Ty) : Opcode :=
  if left.isStringlike || right.isStringlike then
    operator.opcode.stringForm?.getD operator.opcode
  else operator.opcode

namespace Setting

def cellOf (s : Setting) (m : Memory) : Location → Int
  | .turtle base offset =>
    if s.options.turtleAsGlobals then base.toInt + offset.toInt
    else m MemoryMap.turtlePointer.toInt + offset.toInt
  | .global cell => cell.toInt
  | .frame pointer offset => m pointer.toInt + offset.toInt

def cell? (s : Setting) (m : Memory) (id : VariableId) : Option Int :=
  (s.map.location id).toOption.map (s.cellOf m)

/-- What a variable is worth: its cell, or the one whose address is there. -/
def content? (s : Setting) (m : Memory) (id : VariableId) : Option Int := do
  let v ← (s.map.declared id).toOption
  let cell ← s.cell? m id
  match v.kind with
  | .value | .turtle _ => return m cell
  | .reference | .pointer => return m (m cell)

/-- The address of a variable: that of its cell, or the one that a reference holds. -/
def address? (s : Setting) (m : Memory) (id : VariableId) : Option Int := do
  let v ← (s.map.declared id).toOption
  let cell ← s.cell? m id
  match v.kind with
  | .reference => return m cell
  | _ => return cell

/-- The cell that an index selects behind the pointer `p`, `depth` indexes having been used
before. -/
def selected? (s : Setting) (v : Variable) (depth : Nat) (p index : Int) : Option Int :=
  match v.dimensions[depth]? with
  | some bounds => (v.elementLength depth).toOption.map fun each =>
      p + 1 + (index - bounds.first.toInt) * each.toInt
  | none =>
    if depth = v.dimensions.length ∧ v.ty = .string then
      some (p + 2 + (index - s.language.stringOrigin.toInt))
    else none

/-- The cell that indexes lead to from the pointer `p`.  Each cell on the way holds the next
pointer. -/
def reach? (s : Setting) (m : Memory) (v : Variable) : Nat → Int → List Int → Option Int
  | _, _, [] => none
  | depth, p, [index] => s.selected? v depth p index
  | depth, p, index :: next :: rest => do
    let cell ← s.selected? v depth p index
    s.reach? m v (depth + 1) (m cell) (next :: rest)

mutual

def value? (s : Setting) (M : Machine) (m : Memory) : Expression → Option Int
  | .literal value _ => some (value.value M m)
  | .input _ index _ => some (M.unary .inpt m index.toInt)
  | .constant _ value _ => some (value.value M m)
  | .colour _ value _ => some value.toInt
  | .var id indexes _ => do
    let x ← s.content? m id
    if indexes.isEmpty then return x else
      let v ← (s.map.declared id).toOption
      let cell ← s.reach? m v 0 x (← s.values? M m indexes)
      return m cell
  | .address id _ => s.address? m id
  | .call _ _ _ => none
  | .unary operator operand _ => do
    let x ← s.value? M m operand
    if operator.opcode.isUnary then some (M.unary operator.opcode m x) else none
  | .binary operator left right _ => do
    let x ← s.value? M m left
    let y ← s.value? M m right
    if operator.opcode.isBinary then some (M.apply (operator.opcodeOn left.ty right.ty) m x y)
    else none
  | .cast operand ty => do
    let x ← s.value? M m operand
    operand.ty.converted? M m ty x

def values? (s : Setting) (M : Machine) (m : Memory) : List Expression → Option (List Int)
  | [] => some []
  | e :: rest => do
    let x ← s.value? M m e
    let xs ← s.values? M m rest
    return x :: xs

end

end Setting

/-- A node that makes no call.  An operator has as many operands as it takes. -/
def Site.Evaluable : Site → Prop
  | .node (.call _ _ _) => False
  | .node (.unary operator _ _) => operator.opcode.isUnary = true
  | .node (.binary operator _ _ _) => operator.opcode.isBinary = true
  | .node _ => True
  | .call _ => False

def Expression.Evaluable (e : Expression) : Prop := ∀ x ∈ e.sites, x.Evaluable

theorem Expression.eq_literal_of_isInteger {e : Expression} {n : Int64} (h : e.isInteger n = true) :
    ∃ ty, e = .literal (.integer n) ty := by
  unfold Expression.isInteger at h
  split at h
  · next k ty =>
    rw [decide_eq_true_eq] at h
    exact ⟨ty, by rw [h]⟩
  · cases h

/-! ## What pieces of code do -/

variable {M : Machine} {m : Memory}

theorem Literal.code_pushes (value : Literal) : M.Pushes m value.code (value.value M m) := by
  have character (c : Char) : (Int64.ofNat c.toNat).toInt = c.toNat := by
    have hlt : c.toNat < 1114112 := by
      rcases c.valid with h | h
      · exact Nat.lt_trans h (by decide)
      · exact h.2
    exact Int64.toInt_ofNat_of_lt (Nat.lt_trans hlt (by decide))
  cases value with
  | integer n => exact .instr fun st => rfl
  | boolean b => cases b <;> exact .instr fun st => rfl
  | character c =>
    rw [Literal.code, Literal.value, ← character c]
    exact .instr fun st => rfl
  | string t =>
    rw [Literal.code, Literal.value]
    refine .instr fun st => ?_
    rw [← List.length_map fun c : Char => Int64.ofNat c.toNat, Machine.exec_lstr, List.map_map]
    simp only [Function.comp_def, character]

theorem fromOrigin_runs (origin : Int64) (x : Int) (st : List Int) :
    M.Runs (fromOrigin origin) ⟨m, x :: st⟩ ⟨m, (x - origin.toInt) :: st⟩ := by
  unfold fromOrigin
  split
  · next h =>
    subst h
    rw [show x - (0 : Int64).toInt = x from Int.sub_zero x]
    exact .nil
  · split
    · next h =>
      subst h
      exact .instr rfl
    · exact .append (.instr rfl) (.instr (Machine.exec_binary rfl m x origin.toInt st))

theorem Operator.code_runs {operator : Operator} (h : operator.opcode.isBinary = true)
    (left right : Ty) (x y : Int) (st : List Int) :
    M.Runs (operator.code (left.isStringlike || right.isStringlike)) ⟨m, y :: x :: st⟩
      ⟨m, M.apply (operator.opcodeOn left right) m x y :: st⟩ := by
  unfold Operator.code Operator.opcodeOn
  split
  · refine .instr (Machine.exec_binary ?_ m x y st)
    cases operator <;> first | rfl | cases h
  · exact .instr (Machine.exec_binary h m x y st)

/-- The shorter code for a step by one does what the operator would do with the constant one. -/
theorem Operator.stepCode_runs {operator : Operator} {code : Line}
    (h : operator.stepCode? = some code) {left right : Ty}
    (hn : (left.isStringlike || right.isStringlike) = false) (x : Int)
    (st : List Int) : M.Runs code ⟨m, x :: st⟩
      ⟨m, M.apply (operator.opcodeOn left right) m x (1 : Int64).toInt :: st⟩ := by
  unfold Operator.opcodeOn
  rw [hn]
  cases operator with
  | plus | subt =>
    cases h
    exact .instr rfl
  | _ => cases h

theorem Ty.conversion_runs {source target : Ty} {code : Line}
    (h : source.conversion target = .ok code) (x : Int) :
    ∃ y, source.converted? M m target x = some y ∧
      ∀ st, M.Runs code ⟨m, x :: st⟩ ⟨m, y :: st⟩ := by
  unfold Ty.conversion at h
  unfold Ty.converted?
  split at h
  · cases h
    exact ⟨_, rfl, fun st => .instr rfl⟩
  · cases h
    exact ⟨_, rfl, fun st => .instr rfl⟩
  · cases h
    exact ⟨_, rfl, fun st => .instr rfl⟩
  · split at h
    · next heq =>
      cases h
      subst heq
      cases source <;> exact ⟨x, rfl, fun st => .nil⟩
    · cases h

namespace Setting

variable {s : Setting} {id : VariableId} {code : Line}

/-! ### Variables -/

theorem turtle_ok {direct indirect : Opcode} {base offset : Int64}
    (h : s.turtle direct indirect base offset = .ok code) :
    (∃ cell, code = instr direct [cell] ∧ s.cellOf m (.turtle base offset) = cell.toInt) ∨
      code = instr indirect [MemoryMap.turtlePointer, offset] ∧
        s.cellOf m (.turtle base offset) = m MemoryMap.turtlePointer.toInt + offset.toInt := by
  unfold turtle at h
  split at h
  · next hg =>
    obtain ⟨cell, hcell, h⟩ := Result.bind_eq_ok.mp h
    refine .inl ⟨cell, (Result.pure_eq_ok.mp h).symm, ?_⟩
    rw [Cell.add_eq_ok.mp hcell]
    simp only [cellOf, if_pos hg]
  · next hg =>
    refine .inr ⟨(Result.pure_eq_ok.mp h).symm, ?_⟩
    simp only [cellOf, if_neg hg]

/-- A variable is a property of the turtle, or it is a global or in a frame. -/
theorem place_cases {v : Variable} {place : Location} (hv : s.map.declared id = .ok v)
    (hp : s.map.location id = .ok place) :
    (∃ property base offset, v.kind = .turtle property ∧ place = .turtle base offset) ∨
      (v.kind = .value ∨ v.kind = .reference ∨ v.kind = .pointer) ∧
        ((∃ cell, place = .global cell) ∨ ∃ pointer offset, place = .frame pointer offset) := by
  have hturtle := MemoryMap.isTurtle_iff_location hv hp
  unfold Variable.isTurtle at hturtle
  cases hk : v.kind with
  | turtle property =>
    simp only [hk, true_iff] at hturtle
    obtain ⟨base, offset, rfl⟩ := hturtle
    exact .inl ⟨property, base, offset, rfl, rfl⟩
  | value | reference | pointer =>
    simp only [hk, Bool.false_eq_true, false_iff] at hturtle
    refine .inr ⟨by simp, ?_⟩
    cases place with
    | turtle base offset => exact absurd ⟨base, offset, rfl⟩ hturtle
    | global cell => exact .inl ⟨cell, rfl⟩
    | frame pointer offset => exact .inr ⟨pointer, offset, rfl⟩

theorem content?_eq_some {v : Variable} {place : Location} (hv : s.map.declared id = .ok v)
    (hp : s.map.location id = .ok place) :
    s.content? m id = some (match v.kind with
      | .value | .turtle _ => m (s.cellOf m place)
      | .reference | .pointer => m (m (s.cellOf m place))) := by
  simp only [content?, cell?, hv, hp, Except.toOption, Option.map_some, Option.bind_eq_bind,
    Option.bind_some]
  cases v.kind <;> rfl

theorem address?_eq_some {v : Variable} {place : Location} (hv : s.map.declared id = .ok v)
    (hp : s.map.location id = .ok place) :
    s.address? m id = some (match v.kind with
      | .reference => m (s.cellOf m place)
      | _ => s.cellOf m place) := by
  simp only [address?, cell?, hv, hp, Except.toOption, Option.map_some, Option.bind_eq_bind,
    Option.bind_some]
  cases v.kind <;> rfl

theorem load_pushes (h : s.load id = .ok code) :
    ∃ x, s.content? m id = some x ∧ M.Pushes m code x := by
  unfold load at h
  simp only [Result.bind_eq_ok] at h
  obtain ⟨v, hv, place, hp, h⟩ := h
  refine ⟨_, content?_eq_some hv hp, fun st => ?_⟩
  rcases place_cases hv hp with
    ⟨property, base, offset, hk, rfl⟩ | ⟨hk, ⟨cell, rfl⟩ | ⟨pointer, offset, rfl⟩⟩
  · rw [hk]
    rcases turtle_ok (m := m) h with ⟨cell, rfl, hcell⟩ | ⟨rfl, hcell⟩
    all_goals
      rw [hcell]
      exact .instr rfl
  all_goals
    rcases hk with hk | hk | hk
    all_goals
      simp only [hk, Result.pure_eq_ok] at h
      subst h
      rw [hk]
  · exact .instr rfl
  · exact .append (.instr rfl) (.instr rfl)
  · exact .append (.instr rfl) (.instr rfl)
  · exact .instr rfl
  · exact .instr rfl
  · exact .append (.instr rfl) (.instr rfl)

theorem addressOf_pushes (h : s.addressOf id = .ok code) :
    ∃ x, s.address? m id = some x ∧ M.Pushes m code x := by
  unfold addressOf at h
  simp only [Result.bind_eq_ok] at h
  obtain ⟨v, hv, place, hp, h⟩ := h
  refine ⟨_, address?_eq_some hv hp, fun st => ?_⟩
  rcases place_cases hv hp with
    ⟨property, base, offset, hk, rfl⟩ | ⟨hk, ⟨cell, rfl⟩ | ⟨pointer, offset, rfl⟩⟩
  · rw [hk]
    rcases turtle_ok (m := m) h with ⟨cell, rfl, hcell⟩ | ⟨rfl, hcell⟩
    all_goals
      rw [hcell]
      exact .instr rfl
  all_goals
    rcases hk with hk | hk | hk
    all_goals
      simp only [hk, Result.pure_eq_ok] at h
      subst h
      rw [hk]
      exact .instr rfl

/-! ### Elements -/

theorem select_runs {v : Variable} {depth : Nat} (h : s.select v depth = .ok code) (p index : Int) :
    ∃ cell, s.selected? v depth p index = some cell ∧
      ∀ st, M.Runs code ⟨m, index :: p :: st⟩ ⟨m, cell :: st⟩ := by
  unfold select at h
  unfold selected?
  cases hb : v.dimensions[depth]? with
  | some bounds =>
    simp only [hb, Result.bind_eq_ok, Result.pure_eq_ok] at h
    obtain ⟨each, heach, rfl⟩ := h
    refine ⟨p + 1 + (index - bounds.first.toInt) * each.toInt, by rw [heach]; rfl, fun st => ?_⟩
    have check : M.Runs (if s.options.checkRanges then instr .test [] else [])
        ⟨m, (index - bounds.first.toInt) :: p :: st⟩
        ⟨m, (index - bounds.first.toInt) :: p :: st⟩ := by
      split
      · exact .instr rfl
      · exact .nil
    have scale : M.Runs (if each = 1 then [] else instr .ldin [each] ++ instr .mult [])
        ⟨m, (index - bounds.first.toInt) :: p :: st⟩
        ⟨m, (index - bounds.first.toInt) * each.toInt :: p :: st⟩ := by
      split
      · next hone =>
        subst hone
        rw [show (1 : Int64).toInt = 1 from rfl, Int.mul_one]
        exact .nil
      · exact .append (.instr rfl) (.instr rfl)
    rw [Int.add_right_comm]
    exact .append (.append (.append (.append (fromOrigin_runs ..) check) scale) (.instr rfl))
      (.instr rfl)
  | none =>
    simp only [hb] at h
    split at h
    · next hstring =>
      rw [Result.pure_eq_ok] at h
      subst h
      refine ⟨p + 2 + (index - s.language.stringOrigin.toInt), if_pos hstring, fun st => ?_⟩
      rw [Int.add_right_comm]
      exact .append (.append (.append (fromOrigin_runs ..) (.instr rfl)) (.instr rfl)) (.instr rfl)
    · cases h

def Yields (s : Setting) (M : Machine) (m : Memory) (e : Expression) (x : Int) : Prop :=
  ∃ code, s.expression false e = .ok code ∧ M.Pushes m code x

/-- **Following indexes.**  Past the first index the value on the stack is a cell that holds the
next pointer. -/
theorem steps_reach {v : Variable} {indexes : List Expression} {xs : List Int}
    (hx : List.Forall₂ (s.Yields M m) indexes xs) (hne : indexes ≠ []) :
    ∀ {depth : Nat} {code : Line}, s.steps v depth indexes = .ok code → ∀ p,
      ∃ cell, s.reach? m v depth (if depth = 0 then p else m p) xs = some cell ∧
        ∀ st, M.Runs code ⟨m, p :: st⟩ ⟨m, cell :: st⟩ := by
  induction hx with
  | nil => exact absurd rfl hne
  | @cons index x rest xs hindex hrest ih =>
    intro depth code h p
    -- the pointer to start from is on the stack itself for the first index only
    obtain ⟨value, selection, more, hv, hsel, hm, rfl⟩ := steps_cons_ok h
    obtain ⟨value', hv', hpush⟩ := hindex
    obtain rfl : value' = value := Except.ok.inj (hv'.symm.trans hv)
    obtain ⟨cell, hcell, hselect⟩ :=
      select_runs (M := M) (m := m) hsel (if depth = 0 then p else m p) x
    have follow (st : List Int) : M.Runs (if depth = 0 then [] else instr .lptr [])
        ⟨m, p :: st⟩ ⟨m, (if depth = 0 then p else m p) :: st⟩ := by
      split
      · exact .nil
      · exact .instr rfl
    have first (st : List Int) := ((follow st).append (hpush _)).append (hselect st)
    cases hrest with
    | nil =>
      rw [steps] at hm
      cases hm
      exact ⟨cell, hcell, fun st => (first st).append .nil⟩
    | cons hnext hmore =>
      obtain ⟨last, hlast, hruns⟩ := ih (List.cons_ne_nil _ _) hm cell
      refine ⟨last, ?_, fun st => (first st).append (hruns st)⟩
      rw [reach?, hcell]
      exact hlast

/-! ### Expressions -/

mutual

theorem expression_pushes : ∀ (e : Expression) {code : Line}, e.Evaluable →
    s.expression false e = .ok code → ∃ x, s.value? M m e = some x ∧ M.Pushes m code x
  | .literal value ty, code, _, h => by
    obtain ⟨_, rfl⟩ := expression_literal_ok h
    rw [value?]
    exact ⟨_, rfl, value.code_pushes⟩
  | .input name index ty, code, _, h => by
    obtain ⟨_, rfl⟩ := expression_input_ok h
    rw [value?]
    exact ⟨_, rfl, .append (.instr fun st => rfl) fun st => .instr rfl⟩
  | .constant name value ty, code, _, h => by
    obtain ⟨_, rfl⟩ := expression_constant_ok h
    rw [value?]
    exact ⟨_, rfl, value.code_pushes⟩
  | .colour name value ty, code, _, h => by
    obtain ⟨_, rfl⟩ := expression_colour_ok h
    rw [value?]
    exact ⟨_, rfl, .instr fun st => rfl⟩
  | .var id indexes ty, code, he, h => by
    rw [value?]
    rcases expression_var_ok h with
      ⟨_, hf, _⟩ | ⟨rfl, _, h⟩ | ⟨hne, v, pointer, steps, hv, hp, hst, rfl⟩
    · cases hf
    · obtain ⟨x, hx, hpush⟩ := load_pushes (M := M) (m := m) h
      exact ⟨x, by rw [hx]; rfl, hpush⟩
    · rw [Expression.Evaluable, Expression.sites] at he
      obtain ⟨x, hx, hpush⟩ := load_pushes (M := M) (m := m) hp
      obtain ⟨xs, hxs, hyield⟩ :=
        steps_yield indexes (fun x hm => he x (List.mem_cons_of_mem _ hm)) hst
      obtain ⟨cell, hcell, hruns⟩ := steps_reach hyield hne hst x
      refine ⟨m cell, ?_, (hpush.append hruns).append fun st => .instr rfl⟩
      rw [hx, hv, hxs]
      simp only [Except.toOption, Option.bind_eq_bind, Option.bind_some, List.isEmpty_iff, hne,
        if_false]
      rw [if_pos rfl] at hcell
      rw [hcell]
      rfl
  | .address id ty, code, _, h => by
    rw [value?]
    exact addressOf_pushes (expression_address_ok h).2
  | .call callee arguments ty, code, he, h => by
    rw [Expression.Evaluable, Expression.sites] at he
    exact absurd (he _ List.mem_cons_self) not_false
  | .unary operator operand ty, code, he, h => by
    obtain ⟨_, value, hv, rfl⟩ := expression_unary_ok h
    rw [Expression.Evaluable, Expression.sites] at he
    have hop : operator.opcode.isUnary = true := he _ List.mem_cons_self
    obtain ⟨x, hx, hpush⟩ :=
      expression_pushes operand (fun y hm => he y (List.mem_cons_of_mem _ hm)) hv
    rw [value?, hx]
    exact ⟨_, if_pos hop, hpush.append fun st => .instr (Machine.exec_unary hop m x st)⟩
  | .binary operator left right ty, code, he, h => by
    obtain ⟨_, first, hl, h⟩ := expression_binary_ok h
    rw [Expression.Evaluable, Expression.sites] at he
    have hop : operator.opcode.isBinary = true := he _ List.mem_cons_self
    obtain ⟨x, hx, hfirst⟩ := expression_pushes left
      (fun z hm => he z (List.mem_cons_of_mem _ (List.mem_append_left _ hm))) hl
    rw [value?, hx]
    rcases h with ⟨step, hstep, hone, hn, rfl⟩ | ⟨second, hr, rfl⟩
    · -- no code pushes the right operand, which is the constant one
      obtain ⟨ty, rfl⟩ := Expression.eq_literal_of_isInteger hone
      rw [value?]
      exact ⟨_, if_pos hop, hfirst.append fun st => Operator.stepCode_runs hstep hn x st⟩
    · obtain ⟨y, hy, hsecond⟩ := expression_pushes right
        (fun z hm => he z (List.mem_cons_of_mem _ (List.mem_append_right _ hm))) hr
      rw [hy]
      exact ⟨_, if_pos hop, hfirst.append₂ hsecond fun st => Operator.code_runs hop _ _ x y st⟩
  | .cast operand ty, code, he, h => by
    obtain ⟨_, value, conversion, hv, hcv, rfl⟩ := expression_cast_ok h
    rw [Expression.Evaluable, Expression.sites] at he
    obtain ⟨x, hx, hpush⟩ :=
      expression_pushes operand (fun y hm => he y (List.mem_cons_of_mem _ hm)) hv
    obtain ⟨y, hy, hruns⟩ := Ty.conversion_runs (M := M) (m := m) hcv x
    rw [value?, hx]
    exact ⟨y, hy, hpush.append hruns⟩

theorem steps_yield {v : Variable} : ∀ (indexes : List Expression) {depth : Nat} {code : Line},
    (∀ x ∈ Expression.allSites indexes, x.Evaluable) → s.steps v depth indexes = .ok code →
    ∃ xs, s.values? M m indexes = some xs ∧ List.Forall₂ (s.Yields M m) indexes xs
  | [], _, _, _, _ => ⟨[], by rw [values?], .nil⟩
  | index :: rest, depth, code, he, h => by
    obtain ⟨value, _, more, hv, _, hm, _⟩ := steps_cons_ok h
    rw [Expression.allSites] at he
    obtain ⟨x, hx, hpush⟩ :=
      expression_pushes index (fun y hm => he y (List.mem_append_left _ hm)) hv
    obtain ⟨xs, hxs, hyield⟩ := steps_yield rest (fun y hm => he y (List.mem_append_right _ hm)) hm
    rw [values?, hx, hxs]
    exact ⟨x :: xs, rfl, .cons ⟨value, hv, hpush⟩ hyield⟩

end

end Setting

/-- **The code of an expression computes its value.**  It pushes the value on any stack, and memory
stays as it is. -/
theorem expression_value (M : Machine) (s : Setting) {e : Expression} {code : Line}
    (he : e.Evaluable) (h : s.expression false e = .ok code) (m : Memory) :
    ∃ x, s.value? M m e = some x ∧ ∀ st, M.execute code ⟨m, st⟩ = some ⟨m, x :: st⟩ := by
  obtain ⟨x, hx, hpush⟩ := Setting.expression_pushes e he h
  exact ⟨x, hx, fun st => Machine.execute_eq_some_iff.mpr (hpush st)⟩

def shelfAfter : Expression :=
  .binary .plus
    (.var ⟨0, 8⟩ [.integer 2,
      .binary .subt (.var ⟨0, 6⟩ [] .integer) (.integer 1) .integer] .integer)
    (.integer 1) .integer

/-- The headers on the way to the element, which holds 7, and -1 in `total`. -/
def shelfMemory : Memory := fun cell =>
  match cell with
  | 12 => -1
  | 36 => 37
  | 43 => 44
  | 46 => 7
  | _ => 0

def shelfCode : Line :=
  instr .ldvg [36] ++ instr .ldin [2] ++ instr .decr [] ++ instr .test [] ++ instr .ldin [5]
    ++ instr .mult [] ++ instr .plus [] ++ instr .incr [] ++ instr .lptr [] ++ instr .ldvg [12]
    ++ instr .decr [] ++ instr .ldin [-3] ++ instr .subt [] ++ instr .test [] ++ instr .plus []
    ++ instr .incr [] ++ instr .lptr [] ++ instr .incr []

theorem expression_value_shelf : shelfAfter.Evaluable ∧
    (Setting.of storeroom {}).expression false shelfAfter = .ok shelfCode ∧
    (Setting.of storeroom {}).value? .idle shelfMemory shelfAfter = some 8 ∧
    Machine.idle.execute shelfCode ⟨shelfMemory, [5]⟩ = some ⟨shelfMemory, [8, 5]⟩ := by
  have hsites : shelfAfter.Evaluable := by
    simp [Expression.Evaluable, shelfAfter, Expression.integer, Expression.sites,
      Expression.allSites, Site.Evaluable]
    decide
  have hcode : (Setting.of storeroom {}).expression false shelfAfter = .ok shelfCode := by
    rw [Setting.of, storeroom_map]
    rfl
  have hvalue : (Setting.of storeroom {}).value? .idle shelfMemory shelfAfter = some 8 := by
    rw [Setting.of, storeroom_map]
    rfl
  obtain ⟨x, hx, hrun⟩ := expression_value .idle (Setting.of storeroom {}) hsites hcode shelfMemory
  obtain rfl : 8 = x := Option.some.inj (hvalue.symm.trans hx)
  exact ⟨hsites, hcode, hvalue, hrun [5]⟩

end TurtleCode
