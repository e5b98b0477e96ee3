import TurtleCode.Assembly

/-!
# What code is made of

For each construct, what its code looks like when making it succeeds.  Later proofs take code apart
with these and never open the functions themselves.

* `Result.bind_eq_ok` takes a computation that succeeded apart.
* `Setting.load_cases`, `Setting.store_cases`, `Setting.addressOf_cases` list the code of variables.
* `Setting.expression_binary_ok` and its siblings show the code of an expression as the code of its
  parts.
* `Setting.assignment_ok`, `Setting.returnLine_subroutine_ok`, `Setting.prologue_ok` and
  `Setting.epilogue_ok` do so for whole lines.
-/

namespace TurtleCode

/-! ## Computations that succeed -/

theorem Result.bind_eq_ok {ε α β : Type} {m : Except ε α} {f : α → Except ε β} {b : β} :
    (m >>= f) = .ok b ↔ ∃ a, m = .ok a ∧ f a = .ok b := by
  cases m with
  | error fault => simp [bind, Except.bind]
  | ok a => simp [bind, Except.bind]

@[simp] theorem Result.pure_eq_ok {α : Type} {a b : α} :
    (pure a : Result α) = .ok b ↔ a = b := by simp [pure, Except.pure]

theorem Result.of_toOption {α : Type} {r : Result α} {v : α} (h : r.toOption = some v) :
    r = .ok v := by
  cases r with
  | error _ => cases h
  | ok w => exact congrArg Except.ok (Option.some.inj h)

theorem Result.map_eq_ok {α β : Type} {m : Result α} {f : α → β} {b : β} :
    (f <$> m) = .ok b ↔ ∃ a, m = .ok a ∧ f a = b := by
  cases m with
  | error fault => simp [Functor.map, Except.map]
  | ok a => simp [Functor.map, Except.map]

theorem Address.check_eq_ok {n m : Nat} : Address.check n = .ok m ↔ n < UInt64.size ∧ m = n := by
  unfold Address.check
  split
  · next h => simp only [Except.ok.injEq, h, true_and]; exact eq_comm
  · next h => simp only [reduceCtorEq, h, false_and]

theorem Address.add_eq_ok {a b m : Nat} :
    Address.add a b = .ok m ↔ a + b < UInt64.size ∧ m = a + b :=
  Address.check_eq_ok

/-! ## The code of variables -/

namespace Setting

variable {s : Setting} {id : VariableId} {code : Line}

theorem turtle_cases {direct indirect : Opcode} {base offset : Int64}
    (h : s.turtle direct indirect base offset = .ok code) :
    (∃ a, code = instr direct [a]) ∨ ∃ f o, code = instr indirect [f, o] := by
  unfold turtle at h
  split at h
  · obtain ⟨a, _, h⟩ := Result.bind_eq_ok.mp h
    exact .inl ⟨a, (Result.pure_eq_ok.mp h).symm⟩
  · exact .inr ⟨_, _, (Result.pure_eq_ok.mp h).symm⟩

/-- The code that pushes a variable is a load, which may be followed by one through the address
loaded. -/
theorem load_cases (h : s.load id = .ok code) :
    (∃ a, code = instr .ldvg [a]) ∨ (∃ f o, code = instr .ldvv [f, o]) ∨
      (∃ f o, code = instr .ldvr [f, o]) ∨ (∃ a, code = instr .ldvg [a] ++ instr .lptr []) ∨
      ∃ f o, code = instr .ldvv [f, o] ++ instr .lptr [] := by
  unfold load at h
  simp only [Result.bind_eq_ok] at h
  obtain ⟨v, _, place, _, h⟩ := h
  split at h
  · rcases turtle_cases h with h | h
    · exact .inl h
    · exact .inr (.inl h)
  all_goals simp only [Result.pure_eq_ok] at h
  · exact .inl ⟨_, h.symm⟩
  · exact .inr (.inr (.inr (.inl ⟨_, h.symm⟩)))
  · exact .inr (.inr (.inl ⟨_, _, h.symm⟩))
  · exact .inr (.inr (.inr (.inr ⟨_, _, h.symm⟩)))
  · exact .inr (.inl ⟨_, _, h.symm⟩)

/-- The code that pops into a variable is a store, or a load of the address to store at. -/
theorem store_cases (h : s.store id = .ok code) :
    (∃ a, code = instr .stvg [a]) ∨ (∃ f o, code = instr .stvv [f, o]) ∨
      (∃ f o, code = instr .stvr [f, o]) ∨ (∃ a, code = instr .ldvg [a] ++ instr .sptr []) ∨
      ∃ f o, code = instr .ldvv [f, o] ++ instr .sptr [] := by
  unfold store at h
  simp only [Result.bind_eq_ok] at h
  obtain ⟨v, _, place, _, h⟩ := h
  split at h
  · rcases turtle_cases h with h | h
    · exact .inl h
    · exact .inr (.inl h)
  all_goals simp only [Result.pure_eq_ok] at h
  · exact .inl ⟨_, h.symm⟩
  · exact .inr (.inr (.inr (.inl ⟨_, h.symm⟩)))
  · exact .inr (.inr (.inl ⟨_, _, h.symm⟩))
  · exact .inr (.inr (.inr (.inr ⟨_, _, h.symm⟩)))
  · exact .inr (.inl ⟨_, _, h.symm⟩)

theorem addressOf_cases (h : s.addressOf id = .ok code) :
    (∃ a, code = instr .ldag [a]) ∨ (∃ f o, code = instr .ldav [f, o]) ∨
      (∃ a, code = instr .ldvg [a]) ∨ ∃ f o, code = instr .ldvv [f, o] := by
  unfold addressOf at h
  simp only [Result.bind_eq_ok] at h
  obtain ⟨v, _, place, _, h⟩ := h
  split at h
  · rcases turtle_cases h with h | h
    · exact .inl h
    · exact .inr (.inl h)
  all_goals simp only [Result.pure_eq_ok] at h
  · exact .inr (.inr (.inl ⟨_, h.symm⟩))
  · exact .inl ⟨_, h.symm⟩
  · exact .inr (.inr (.inr ⟨_, _, h.symm⟩))
  · exact .inr (.inl ⟨_, _, h.symm⟩)

theorem fetchResult_cases {callee : Callee} (h : s.fetchResult callee = .ok code) :
    code = [] ∨ ∃ a, code = instr .ldvg [a] := by
  unfold fetchResult at h
  split at h
  · exact .inl (Except.ok.inj h).symm
  · simp only [Result.bind_eq_ok] at h
    obtain ⟨cell, _, h⟩ := h
    split at h
    · exact .inr ⟨_, (Result.pure_eq_ok.mp h).symm⟩
    · exact .inl (Result.pure_eq_ok.mp h).symm

end Setting

theorem Ty.conversion_cases {source target : Ty} {code : Line}
    (h : source.conversion target = .ok code) :
    code = [] ∨ ∃ op ∈ [Opcode.ctos, .itos, .sval], code = instr op [] := by
  unfold Ty.conversion at h
  split at h
  · exact .inr ⟨.ctos, by simp, (Except.ok.inj h).symm⟩
  · exact .inr ⟨.itos, by simp, (Except.ok.inj h).symm⟩
  · exact .inr ⟨.sval, by simp, (Except.ok.inj h).symm⟩
  · split at h
    · exact .inl (Except.ok.inj h).symm
    · cases h

/-! ## The code of expressions, construct by construct -/

namespace Setting

variable {s : Setting} {byReference : Bool} {code : Line} {ty : Ty}

attribute [local simp] expression steps arguments statement statements

theorem expression_literal_ok {value : Literal}
    (h : s.expression byReference (.literal value ty) = .ok code) :
    byReference = false ∧ code = value.code := by
  cases byReference <;> simp_all [expression]

theorem expression_constant_ok {name : String} {value : Literal}
    (h : s.expression byReference (.constant name value ty) = .ok code) :
    byReference = false ∧ code = value.code := by
  cases byReference <;> simp_all [expression]

theorem expression_input_ok {name : String} {index : Int64}
    (h : s.expression byReference (.input name index ty) = .ok code) :
    byReference = false ∧ code = instr .ldin [index] ++ instr .inpt [] := by
  cases byReference <;> simp_all [expression]

theorem expression_colour_ok {name : String} {value : Int64}
    (h : s.expression byReference (.colour name value ty) = .ok code) :
    byReference = false ∧ code = instr .ldin [value] := by
  cases byReference <;> simp_all [expression]

theorem expression_address_ok {id : VariableId}
    (h : s.expression byReference (.address id ty) = .ok code) :
    byReference = false ∧ s.addressOf id = .ok code := by
  cases byReference <;> simp_all [expression]

theorem expression_var_ok {id : VariableId} {indexes : List Expression}
    (h : s.expression byReference (.var id indexes ty) = .ok code) :
    (indexes = [] ∧ byReference = true ∧ s.addressOf id = .ok code) ∨
      (indexes = [] ∧ byReference = false ∧ s.load id = .ok code) ∨
      (indexes ≠ [] ∧ ∃ v pointer steps, s.map.declared id = .ok v ∧ s.load id = .ok pointer ∧
        s.steps v 0 indexes = .ok steps ∧
        code = pointer ++ steps ++ if byReference then [] else instr .lptr []) := by
  rw [expression] at h
  split at h
  · next he =>
    rw [List.isEmpty_iff] at he
    split at h
    · next hb => exact .inl ⟨he, hb, h⟩
    · next hb => exact .inr (.inl ⟨he, by simpa using hb, h⟩)
  · next he =>
    simp only [Result.bind_eq_ok, Result.pure_eq_ok] at h
    obtain ⟨v, hv, pointer, hp, steps, hst, hc⟩ := h
    exact .inr (.inr ⟨by simpa using he, v, pointer, steps, hv, hp, hst, hc.symm⟩)

theorem expression_call_ok {callee : Callee} {arguments : List Expression}
    (h : s.expression byReference (.call callee arguments ty) = .ok code) :
    byReference = false ∧ ∃ flags values fetched, s.passing callee arguments.length = .ok flags ∧
      s.arguments flags arguments = .ok values ∧ s.fetchResult callee = .ok fetched ∧
      code = values ++ callee.code ++ fetched := by
  rw [expression] at h
  split at h
  · cases h
  · next hb =>
    simp only [Result.bind_eq_ok, Result.pure_eq_ok] at h
    obtain ⟨flags, hf, values, hv, fetched, hr, hc⟩ := h
    exact ⟨by simpa using hb, flags, values, fetched, hf, hv, hr, hc.symm⟩

theorem expression_unary_ok {operator : Operator} {operand : Expression}
    (h : s.expression byReference (.unary operator operand ty) = .ok code) :
    byReference = false ∧ ∃ value, s.expression false operand = .ok value ∧
      code = value ++ instr operator.opcode [] := by
  rw [expression] at h
  split at h
  · cases h
  · next hb =>
    simp only [Result.bind_eq_ok, Result.pure_eq_ok] at h
    obtain ⟨value, hv, hc⟩ := h
    exact ⟨by simpa using hb, value, hv, hc.symm⟩

/-- Two operands and an operator, or one operand and the shorter code for a step by one. -/
theorem expression_binary_ok {operator : Operator} {left right : Expression}
    (h : s.expression byReference (.binary operator left right ty) = .ok code) :
    byReference = false ∧ ∃ first, s.expression false left = .ok first ∧
      ((∃ step, operator.stepCode? = some step ∧ right.isInteger 1 = true ∧
          (left.ty.isStringlike || right.ty.isStringlike) = false ∧ code = first ++ step) ∨
        ∃ second, s.expression false right = .ok second ∧
          code = first ++ second ++
            operator.code (left.ty.isStringlike || right.ty.isStringlike)) := by
  rw [expression] at h
  split at h
  · cases h
  · next hb =>
    obtain ⟨first, hl, h⟩ := Result.bind_eq_ok.mp h
    refine ⟨by simpa using hb, first, hl, ?_⟩
    dsimp only at h
    split at h
    · next step hstep =>
      split at hstep
      · next hone =>
        rw [Bool.and_eq_true, Bool.not_eq_true'] at hone
        exact .inl ⟨step, hstep, hone.2, hone.1, (Result.pure_eq_ok.mp h).symm⟩
      · cases hstep
    · simp only [Result.bind_eq_ok, Result.pure_eq_ok] at h
      obtain ⟨second, hr, hc⟩ := h
      exact .inr ⟨second, hr, hc.symm⟩

theorem expression_cast_ok {operand : Expression}
    (h : s.expression byReference (.cast operand ty) = .ok code) :
    byReference = false ∧ ∃ value conversion, s.expression false operand = .ok value ∧
      operand.ty.conversion ty = .ok conversion ∧ code = value ++ conversion := by
  rw [expression] at h
  split at h
  · cases h
  · next hb =>
    simp only [Result.bind_eq_ok, Result.pure_eq_ok] at h
    obtain ⟨value, hv, conversion, hcv, hc⟩ := h
    exact ⟨by simpa using hb, value, conversion, hv, hcv, hc.symm⟩

theorem steps_cons_ok {v : Variable} {depth : Nat} {index : Expression} {rest : List Expression}
    (h : s.steps v depth (index :: rest) = .ok code) :
    ∃ value selection more, s.expression false index = .ok value ∧
      s.select v depth = .ok selection ∧ s.steps v (depth + 1) rest = .ok more ∧
      code = (if depth = 0 then [] else instr .lptr []) ++ value ++ selection ++ more := by
  rw [steps] at h
  simp only [Result.bind_eq_ok, Result.pure_eq_ok] at h
  obtain ⟨value, hv, selection, hs, more, hm, hc⟩ := h
  exact ⟨value, selection, more, hv, hs, hm, hc.symm⟩

theorem arguments_cons_ok {flag : Bool} {flags : List Bool} {argument : Expression}
    {rest : List Expression} (h : s.arguments (flag :: flags) (argument :: rest) = .ok code) :
    ∃ value more, s.expression flag argument = .ok value ∧ s.arguments flags rest = .ok more ∧
      code = value ++ more := by
  rw [arguments] at h
  simp only [Result.bind_eq_ok, Result.pure_eq_ok] at h
  obtain ⟨value, hv, more, hm, hc⟩ := h
  exact ⟨value, more, hv, hm, hc.symm⟩

theorem element_ok {id : VariableId} {indexes : List Expression}
    (h : s.element id indexes = .ok code) :
    ∃ v pointer steps, s.map.declared id = .ok v ∧ s.load id = .ok pointer ∧
      s.steps v 0 indexes = .ok steps ∧ code = pointer ++ steps := by
  unfold element at h
  simp only [Result.bind_eq_ok, Result.pure_eq_ok] at h
  obtain ⟨v, hv, pointer, hp, steps, hst, hc⟩ := h
  exact ⟨v, pointer, steps, hv, hp, hst, hc.symm⟩

theorem call_ok {c : Call} (h : s.call c = .ok code) :
    ∃ flags values, s.passing c.callee c.arguments.length = .ok flags ∧
      s.arguments flags c.arguments = .ok values ∧ code = values ++ c.callee.code := by
  unfold call at h
  simp only [Result.bind_eq_ok, Result.pure_eq_ok] at h
  obtain ⟨flags, hf, values, hv, hc⟩ := h
  exact ⟨flags, values, hf, hv, hc.symm⟩

/-- An assignment is a value and then a store into a variable or an element; a whole string is
copied into the storage that its target points to. -/
theorem assignment_ok {a : Assignment} (h : s.assignment a = .ok code) :
    ∃ value tail, s.expression false a.value = .ok value ∧ code = value ++ tail ∧
      ((∃ pointer, s.load a.target = .ok pointer ∧ tail = pointer ++ instr .cstr []) ∨
        s.store a.target = .ok tail ∨
        (∃ address, s.element a.target a.indexes = .ok address ∧ a.indexes ≠ [] ∧
          tail = address ++ (instr .lptr [] ++ instr .cstr [])) ∨
        ∃ address, s.element a.target a.indexes = .ok address ∧ a.indexes ≠ [] ∧
          tail = address ++ instr .sptr []) := by
  unfold assignment at h
  simp only [Result.bind_eq_ok] at h
  obtain ⟨v, _, value, hv, h⟩ := h
  split at h
  · split at h
    · simp only [Result.bind_eq_ok, Result.pure_eq_ok] at h
      obtain ⟨pointer, hp, rfl⟩ := h
      exact ⟨value, _, hv, List.append_assoc _ _ _, .inl ⟨pointer, hp, rfl⟩⟩
    · simp only [Result.bind_eq_ok, Result.pure_eq_ok] at h
      obtain ⟨tail, ht, rfl⟩ := h
      exact ⟨value, tail, hv, rfl, .inr (.inl ht)⟩
  · next he =>
    simp only [Result.bind_eq_ok, Result.pure_eq_ok] at h
    obtain ⟨address, ha, rfl⟩ := h
    have hne : a.indexes ≠ [] := by simpa using he
    refine ⟨value, _, hv, List.append_assoc _ _ _, .inr (.inr ?_)⟩
    split
    · exact .inl ⟨address, ha, hne, rfl⟩
    · exact .inr ⟨address, ha, hne, rfl⟩

theorem releaseFrame_ok {sub : Subroutine} (h : releaseFrame sub = .ok code) :
    ∃ pointer, MemoryMap.frameCell sub.index = .ok pointer ∧
      code = instr .memr [pointer] ++ instr .retn [] := by
  unfold releaseFrame at h
  simp only [Result.bind_eq_ok, Result.pure_eq_ok] at h
  obtain ⟨pointer, hp, hc⟩ := h
  exact ⟨pointer, hp, hc.symm⟩

theorem copyResult_ok {sub : Subroutine} (h : s.copyResult sub = .ok code) :
    code = [] ∨ ∃ id value cell, s.load id = .ok value ∧ s.map.resultCell = .ok (some cell) ∧
      code = value ++ instr .stvg [cell] := by
  unfold copyResult at h
  obtain ⟨cell, hcell, h⟩ := Result.bind_eq_ok.mp h
  split at h
  · simp only [Result.bind_eq_ok, Result.pure_eq_ok] at h
    obtain ⟨value, hv, hc⟩ := h
    exact .inr ⟨_, value, _, hv, hcell, hc.symm⟩
  · exact .inl (Result.pure_eq_ok.mp h).symm

theorem epilogue_ok {sub : Subroutine} (h : s.epilogue sub = .ok code) :
    ∃ result pointer, s.copyResult sub = .ok result ∧
      MemoryMap.frameCell sub.index = .ok pointer ∧
      code = result ++ (instr .memr [pointer] ++ instr .retn []) := by
  unfold epilogue at h
  simp only [Result.bind_eq_ok, Result.pure_eq_ok] at h
  obtain ⟨result, hr, released, hl, rfl⟩ := h
  obtain ⟨pointer, hp, rfl⟩ := releaseFrame_ok hl
  exact ⟨result, pointer, hr, hp, rfl⟩

/-- A return of a subroutine leaves a value in the result cell, or copies the result variable there
as the epilogue does, and gives the frame back. -/
theorem returnLine_subroutine_ok {sub : Subroutine} {value : Option Expression}
    (h : s.returnLine value (.subroutine sub) = .ok code) :
    ∃ result pointer, MemoryMap.frameCell sub.index = .ok pointer ∧
      code = result ++ (instr .memr [pointer] ++ instr .retn []) ∧
      (s.copyResult sub = .ok result ∨ ∃ e first cell, value = some e ∧
        s.expression false e = .ok first ∧ s.map.resultCell = .ok (some cell) ∧
        result = first ++ instr .stvg [cell]) := by
  unfold returnLine at h
  obtain ⟨cell, hcell, h⟩ := Result.bind_eq_ok.mp h
  split at h
  · simp only [Result.bind_eq_ok, Result.pure_eq_ok] at h
    obtain ⟨first, hf, result, hres, released, hl, rfl⟩ := h
    obtain ⟨pointer, hp, rfl⟩ := releaseFrame_ok hl
    exact ⟨result, pointer, hp, rfl, .inr ⟨_, first, _, rfl, hf, hcell, hres.symm⟩⟩
  · simp only [Result.bind_eq_ok, Result.pure_eq_ok] at h
    obtain ⟨result, hr, released, hl, rfl⟩ := h
    obtain ⟨pointer, hp, rfl⟩ := releaseFrame_ok hl
    exact ⟨result, pointer, hp, rfl, .inl hr⟩

/-! ### Lines of statements -/

section Statements

variable {routine : Routine} {start : Nat} {lines : List Line}

theorem statement_assign_ok {a : Assignment}
    (h : s.statement routine start (.assign a) = .ok lines) :
    ∃ code, s.assignment a = .ok code ∧ lines = [code] := by
  rw [statement] at h
  simp only [Result.bind_eq_ok, Result.pure_eq_ok] at h
  obtain ⟨code, hc, hl⟩ := h
  exact ⟨code, hc, hl.symm⟩

theorem statement_call_ok {c : Call} (h : s.statement routine start (.call c) = .ok lines) :
    ∃ code, s.call c = .ok code ∧ lines = [code] := by
  rw [statement] at h
  simp only [Result.bind_eq_ok, Result.pure_eq_ok] at h
  obtain ⟨code, hc, hl⟩ := h
  exact ⟨code, hc, hl.symm⟩

theorem statement_ret_ok {value : Option Expression}
    (h : s.statement routine start (.ret value) = .ok lines) :
    ∃ line, s.returnLine value routine = .ok line ∧ lines = [line] := by
  rw [statement] at h
  simp only [Result.bind_eq_ok, Result.pure_eq_ok] at h
  obtain ⟨line, hc, hl⟩ := h
  exact ⟨line, hc, hl.symm⟩

/-- Without an `else` part a failed test goes to the line after the block.  With one it goes to the
first line of that part, and a jump over the part follows the block. -/
theorem statement_ifElse_ok {condition : Expression} {thenBody elseBody : List Statement}
    (h : s.statement routine start (.ifElse condition thenBody elseBody) = .ok lines) :
    ∃ test thenLines, s.expression false condition = .ok test ∧
      s.statements routine (start + 1) thenBody = .ok thenLines ∧
      ((elseBody = [] ∧ start + 1 + thenLines.length < UInt64.size ∧
          lines = (test ++ unlessJumpTo (start + 1 + thenLines.length)) :: thenLines) ∨
        ∃ elseLines, elseBody ≠ [] ∧
          s.statements routine (start + 1 + thenLines.length + 1) elseBody = .ok elseLines ∧
          start + 1 + thenLines.length + 1 + elseLines.length < UInt64.size ∧
          lines = (test ++ unlessJumpTo (start + 1 + thenLines.length + 1)) :: thenLines
            ++ jumpTo (start + 1 + thenLines.length + 1 + elseLines.length) :: elseLines) := by
  rw [statement] at h
  simp only [Result.bind_eq_ok, Address.add_eq_ok] at h
  obtain ⟨test, ht, _, ⟨_, rfl⟩, thenLines, hl, _, ⟨ha, rfl⟩, h⟩ := h
  refine ⟨test, thenLines, ht, hl, ?_⟩
  split at h
  · next he =>
    exact .inl ⟨by simpa using he, ha, (Result.pure_eq_ok.mp h).symm⟩
  · next he =>
    simp only [Result.bind_eq_ok, Address.add_eq_ok, Result.pure_eq_ok] at h
    obtain ⟨_, ⟨_, rfl⟩, elseLines, hel, _, ⟨hb, rfl⟩, hc⟩ := h
    exact .inr ⟨elseLines, by simpa using he, hel, hb, hc.symm⟩

theorem statement_whileDo_ok {condition : Expression} {body : List Statement}
    (h : s.statement routine start (.whileDo condition body) = .ok lines) :
    ∃ test bodyLines, s.expression false condition = .ok test ∧
      s.statements routine (start + 1) body = .ok bodyLines ∧
      start + 1 + bodyLines.length + 1 < UInt64.size ∧
      lines = (test ++ unlessJumpTo (start + 1 + bodyLines.length + 1)) :: bodyLines
        ++ [jumpTo start] := by
  rw [statement] at h
  simp only [Result.bind_eq_ok, Address.add_eq_ok, Result.pure_eq_ok] at h
  obtain ⟨test, ht, _, ⟨_, rfl⟩, bodyLines, hl, _, ⟨_, rfl⟩, _, ⟨ha, rfl⟩, hc⟩ := h
  exact ⟨test, bodyLines, ht, hl, ha, hc.symm⟩

theorem statement_repeatUntil_ok {condition : Expression} {body : List Statement}
    (h : s.statement routine start (.repeatUntil condition body) = .ok lines) :
    ∃ test bodyLines, s.expression false condition = .ok test ∧
      s.statements routine start body = .ok bodyLines ∧
      lines = bodyLines ++ [test ++ unlessJumpTo start] := by
  rw [statement] at h
  simp only [Result.bind_eq_ok, Result.pure_eq_ok] at h
  obtain ⟨bodyLines, hl, test, ht, hc⟩ := h
  exact ⟨test, bodyLines, ht, hl, hc.symm⟩

theorem statement_forLoop_ok {initial change : Assignment} {condition : Expression}
    {body : List Statement}
    (h : s.statement routine start (.forLoop initial condition change body) = .ok lines) :
    ∃ first test step bodyLines, s.assignment initial = .ok first ∧
      s.expression false condition = .ok test ∧ s.assignment change = .ok step ∧
      s.statements routine (start + 1 + 1) body = .ok bodyLines ∧
      start + 1 + 1 + bodyLines.length + 1 < UInt64.size ∧
      lines = first :: ((test ++ unlessJumpTo (start + 1 + 1 + bodyLines.length + 1)) :: bodyLines
        ++ [step ++ jumpTo (start + 1)]) := by
  rw [statement] at h
  simp only [Result.bind_eq_ok, Address.add_eq_ok, Result.pure_eq_ok] at h
  obtain ⟨first, hf, _, ⟨_, rfl⟩, test, ht, _, ⟨_, rfl⟩, bodyLines, hl, _, ⟨_, rfl⟩, _, ⟨ha, rfl⟩,
    step, hs, hc⟩ := h
  exact ⟨first, test, step, bodyLines, hf, ht, hs, hl, ha, hc.symm⟩

theorem statement_pass_ok (h : s.statement routine start .pass = .ok lines) : lines = [] := by
  rw [statement] at h
  exact (Except.ok.inj h).symm

theorem statements_nil_ok (h : s.statements routine start [] = .ok lines) : lines = [] := by
  rw [statements] at h
  exact (Except.ok.inj h).symm

theorem statements_cons_ok {head : Statement} {rest : List Statement}
    (h : s.statements routine start (head :: rest) = .ok lines) :
    ∃ here more, start < UInt64.size ∧ s.statement routine start head = .ok here ∧
      s.statements routine (start + here.length) rest = .ok more ∧ lines = here ++ more := by
  rw [statements] at h
  simp only [Result.bind_eq_ok, Address.check_eq_ok, Result.pure_eq_ok] at h
  obtain ⟨_, ⟨hs, rfl⟩, here, hh, more, hm, hc⟩ := h
  exact ⟨here, more, hs, hh, hm, hc.symm⟩

end Statements

/-! ### Entering a subroutine -/

theorem prologue_ok {sub : Subroutine} (h : s.prologue sub = .ok code) :
    ∃ pointer length headers received, MemoryMap.frameCell sub.index = .ok pointer ∧
      MemoryMap.frameLength sub = .ok length ∧
      Region.allHeaders (.frame pointer) s.options.clearLocals Variable.headedInFrame 0
        sub.declarations = .ok headers ∧
      s.receiveAll sub.index sub.parameterSlots.reverse = .ok received ∧
      code = s.claimFrame pointer length ++ headers ++ received := by
  unfold prologue at h
  simp only [Result.bind_eq_ok, Result.pure_eq_ok] at h
  obtain ⟨pointer, hp, length, hl, headers, hh, received, hr, hc⟩ := h
  exact ⟨pointer, length, headers, received, hp, hl, hh, hr, hc.symm⟩

/-- An argument is copied as a string or stored as one cell. -/
theorem receive_ok {id : VariableId} {v : Variable} (h : s.receive id v = .ok code) :
    (∃ pointer, s.load id = .ok pointer ∧ code = pointer ++ instr .cstr []) ∨
      ∃ f o, code = instr .stvv [f, o] := by
  unfold receive at h
  split at h
  · simp only [Result.bind_eq_ok, Result.pure_eq_ok] at h
    obtain ⟨pointer, hp, hc⟩ := h
    exact .inl ⟨pointer, hp, hc.symm⟩
  · simp only [Result.bind_eq_ok, Result.pure_eq_ok] at h
    obtain ⟨⟨f, o⟩, _, hc⟩ := h
    exact .inr ⟨f, o, hc.symm⟩

/-! ### The start of a program -/

/-- The line that sets up the turtle, the canvas and the key buffer. -/
def setupLine (s : Setting) (base : Int64) (properties : Line) : Line :=
  instr .ldin [base] ++ instr .stvg [MemoryMap.turtlePointer] ++ properties
    ++ setCanvas s.options.canvasSize ++ if s.options.keyBuffer then setKeyBuffer else []

theorem startup_ok {first : List Line} (h : s.startup = .ok first) :
    ∃ base properties cell headers, s.setTurtle base s.turtleStart = .ok properties ∧
      Region.allHeaders .globals true Variable.ownsStorage cell s.map.program.declarations
        = .ok headers ∧
      first = s.setupLine base properties :: if headers.isEmpty then [] else [headers] := by
  unfold startup at h
  simp only [Result.bind_eq_ok, Result.pure_eq_ok] at h
  obtain ⟨base, _, properties, hp, cell, _, headers, hh, rfl⟩ := h
  refine ⟨base, properties, cell, headers, hp, hh, ?_⟩
  split
  · rfl
  · rfl

/-! ### Assembly -/

theorem subroutineBlock_ok {start : Nat} {lines : List Line} {placed : List Placement}
    (h : s.subroutineBlock start = .ok (lines, placed)) :
    (s.map.subroutines = [] ∧ lines = [] ∧ placed = []) ∨
      ∃ inner, s.map.subroutines ≠ [] ∧
        s.place (start + 1) s.map.subroutines = .ok (inner, placed) ∧
        lines = jumpTo (start + 1 + inner.length) :: inner := by
  unfold subroutineBlock at h
  split at h
  · next he =>
    cases h
    exact .inl ⟨by simpa using he, rfl, rfl⟩
  · next he =>
    simp only [Result.bind_eq_ok, Address.add_eq_ok, Result.pure_eq_ok] at h
    obtain ⟨_, ⟨_, rfl⟩, ⟨inner, where'⟩, hp, hl⟩ := h
    cases hl
    exact .inr ⟨inner, by simpa using he, hp, rfl⟩

theorem assemble_ok {a : Assembly} (h : s.assemble = .ok a) :
    ∃ first block placed main, s.startup = .ok first ∧
      s.subroutineBlock first.length = .ok (block, placed) ∧
      s.statements (.program s.map.program) (first ++ block).length s.map.program.statements
        = .ok main ∧
      a = ⟨first ++ block ++ main ++ [instr .halt []], Placements.ofList placed⟩ := by
  unfold assemble at h
  simp only [Result.bind_eq_ok, Result.pure_eq_ok] at h
  obtain ⟨first, hf, ⟨block, placed⟩, hb, main, hm, ha⟩ := h
  exact ⟨first, block, placed, main, hf, hb, hm, ha.symm⟩

end Setting

end TurtleCode
