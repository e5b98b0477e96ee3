import TurtleCode.Proofs.StackLaw

/-!
# Properties of all code

A property of code that does not look at the operand stack and is kept by appending holds of
everything that is emitted once it holds of the pieces.

* `CodeLaw s P`: `P` holds of ordinary instructions and of calls, and is kept by appending.
* `CodeLaw.stackLaw`: such a property is one that ignores how many values are taken and left.
  `CodeLaw.expression`, `CodeLaw.assignment` and so on conclude `P` of whole code, given `P` of the
  native code and of the constants in it (`Site.Obeys`).
-/

namespace TurtleCode

/-- A property of code that holds of ordinary instructions and of calls of known subroutines, and
that is kept by appending. -/
structure CodeLaw (s : Setting) (P : Line → Prop) : Prop where
  nil : P []
  append {a b : Line} : P a → P b → P (a ++ b)
  ordinary {op : Opcode} {operands : List Int64} :
    op.ordinary = true → operands.length = op.operandCount → P (instr op operands)
  call {index : UInt64} {sub : Subroutine} :
    s.map.subroutine index = .ok sub → P [.op .subr, .call index]

/-- What is written out at a site, native code or a constant, has the property. -/
structure Site.Obeys (P : Line → Prop) (x : Site) : Prop where
  native : ∀ routine, x.native? = some routine → P routine.code
  literal : ∀ value, x.literal? = some value → P value.code

namespace CodeLaw

variable {s : Setting} {P : Line → Prop} {code : Line}

theorem stackLaw (law : CodeLaw s P) : StackLaw s fun _ _ => P where
  nil := law.nil
  append := law.append
  above _ h := h
  ordinary h hl _ := law.ordinary h hl

theorem calleeCode (law : CodeLaw s P) {callee : Callee} {count : Nat} {flags : List Bool}
    (h : s.passing callee count = .ok flags)
    (hn : ∀ routine, callee = .native routine → P routine.code) : P callee.code := by
  cases callee with
  | native routine => exact hn routine rfl
  | subroutine index =>
    obtain ⟨sub, hs, _⟩ := Result.bind_eq_ok.mp h
    exact law.call hs

theorem fetchResult (law : CodeLaw s P) {callee : Callee} (h : s.fetchResult callee = .ok code) :
    P code := by
  rcases Setting.fetchResult_cases h with rfl | ⟨a, rfl⟩
  · exact law.nil
  · exact law.ordinary rfl rfl

/-- The numbers of operands and arguments do not matter to such a property. -/
theorem meets (law : CodeLaw s P) {x : Site} (hx : x.Obeys P) : x.Meets s fun _ _ => P := by
  cases x with
  | call c =>
    obtain ⟨callee, arguments⟩ := c
    intro flags hf
    refine law.calleeCode hf fun routine hr => ?_
    subst hr
    exact hx.native routine rfl
  | node e =>
    cases e with
    | literal value ty => exact hx.literal value rfl
    | constant name value ty => exact hx.literal value rfl
    | unary operator operand ty => cases operator <;> exact law.ordinary rfl rfl
    | binary operator left right ty =>
      intro onStrings
      cases operator <;> cases onStrings <;> exact law.ordinary rfl rfl
    | call callee arguments ty =>
      intro flags fetched hf hr
      refine law.append (law.calleeCode hf fun routine hc => ?_) (law.fetchResult hr)
      subst hc
      exact hx.native routine rfl
    | input | colour | var | address | cast => trivial

theorem expression (law : CodeLaw s P) {byReference : Bool} (e : Expression)
    (hx : ∀ x ∈ e.sites, x.Obeys P) (h : s.expression byReference e = .ok code) : P code :=
  law.stackLaw.expression e (fun x hm => law.meets (hx x hm)) h

theorem call' (law : CodeLaw s P) {c : Call} (hx : ∀ x ∈ c.sites, x.Obeys P)
    (h : s.call c = .ok code) : P code :=
  law.stackLaw.call (fun x hm => law.meets (hx x hm)) h

theorem assignment (law : CodeLaw s P) {a : Assignment} (hx : ∀ x ∈ a.sites, x.Obeys P)
    (h : s.assignment a = .ok code) : P code :=
  law.stackLaw.assignment (fun x hm => law.meets (hx x hm)) h

theorem copyResult (law : CodeLaw s P) {sub : Subroutine} (h : s.copyResult sub = .ok code) :
    P code := law.stackLaw.copyResult h

theorem prologue (law : CodeLaw s P) {sub : Subroutine} (h : s.prologue sub = .ok code) :
    ∃ pointer length rest, MemoryMap.frameCell sub.index = .ok pointer ∧
      code = instr .memc [pointer, length] ++ rest ∧ P rest := law.stackLaw.prologue h

theorem startup (law : CodeLaw s P) {first : List Line} (h : s.startup = .ok first) :
    ∀ line ∈ first, P line ∧ line ≠ [] := law.stackLaw.startup h

end CodeLaw

end TurtleCode
