import TurtleCode.CommandLine
import TurtleCode.Proofs.Readers

/-!
# Routine trees survive their text

Every reader of routine trees gets back what the writer of the same type wrote, if the levels it is
told are left cover the depth of the written value.  Readers of nested trees hand the levels down
less what they open themselves, which is what the writer adds on the way up.

* `Expression.reads`, `Statement.reads` and `Subroutine.reads` are that law for nested trees.
* `Program.readAs_render`: a program is read from its own text.
-/

namespace TurtleCode

open Json Json.Fields

variable {levels : Nat}

@[simp] theorem Json.depth_variant (name : String) (body : Json) :
    (variant name body).depth = body.depth + 1 := by
  simp [variant, depth, depthMembers]

@[simp] theorem Expression.depth_node (kind : Json) (ty : Ty) :
    (node kind ty).depth = kind.depth + 1 := by
  simp [node, Ty.toJson, depth, depthMembers]

/-! ## Names and words -/

theorem Ty.reads (ty : Ty) : Reads (Ty.read levels) ty.toJson ty :=
  reads_named (by decide) (by cases ty <;> decide)

theorem Language.reads (language : Language) :
    Reads (Language.read levels) language.toJson language :=
  reads_named (by decide) (by cases language <;> decide)

theorem TurtleProperty.reads (property : TurtleProperty) :
    Reads (TurtleProperty.read levels) property.toJson property :=
  reads_named (by decide) (by cases property <;> decide)

theorem Operator.reads (operator : Operator) :
    Reads (Operator.read levels) operator.toJson operator :=
  reads_named (by decide) (by cases operator <;> decide)

theorem Opcode.reads (code : Opcode) : Reads (Opcode.read levels) (.string code.name) code :=
  reads_named (by decide +kernel) (List.mem_of_getElem? (Opcode.all_getElem?_number code))

theorem Word.reads (w : Word) (h : w.toJson.depth ≤ levels) :
    Reads (Word.read levels) w.toJson w := by
  cases w <;> rw [toJson, depth_variant] at h
  case op code => exact reads_holding (by omega) rfl code.reads
  case int n => exact reads_holding (by omega) rfl (reads_int64 n)
  case call index => exact reads_holding (by omega) rfl (reads_uint64 index)

theorem Literal.reads (value : Literal) (h : value.toJson.depth ≤ levels) :
    Reads (Literal.read levels) value.toJson value := by
  cases value <;> rw [toJson, depth_variant] at h
  case integer n => exact reads_holding (by omega) rfl (reads_int64 n)
  case boolean b => exact reads_holding (by omega) rfl (reads_bool b)
  case character c => exact reads_holding (by omega) rfl (reads_char c)
  case string s => exact reads_holding (by omega) rfl (reads_text s)

/-! ## Variables -/

theorem VariableId.reads (id : VariableId) (h : id.toJson.depth ≤ levels) :
    Reads (VariableId.read levels) id.toJson id := by
  rw [toJson, depth] at h
  exact Takes.reads (.cons (reads_uint64 id.routine) (.one (reads_uint64 id.slot))) (by omega)

theorem VariableKind.reads (kind : VariableKind) (h : kind.toJson.depth ≤ levels) :
    Reads (VariableKind.read levels) kind.toJson kind := by
  cases kind with
  | value => exact reads_plain rfl
  | turtle property =>
    rw [toJson, depth_variant] at h
    exact reads_holding (by omega) rfl property.reads
  | reference => exact reads_plain rfl
  | pointer => exact reads_plain rfl

theorem Bounds.reads (bounds : Bounds) (h : bounds.toJson.depth ≤ levels) :
    Reads (Bounds.read levels) bounds.toJson bounds := by
  rw [toJson, depth] at h
  exact Takes.reads (.cons (reads_int64 bounds.first) (.one (reads_int64 bounds.last))) (by omega)

theorem Variable.reads (v : Variable) (h : v.toJson.depth ≤ levels) :
    Reads (Variable.read levels) v.toJson v := by
  simp only [toJson, depth, depthMembers] at h
  have hdimensions : Reads (readList (levels - 1) (Bounds.read (levels - 2)))
      (list Bounds.toJson v.dimensions) v.dimensions :=
    reads_list (by omega) fun bounds _ hbounds => bounds.reads (by omega)
  exact Takes.reads
    (.cons (reads_text v.name) <| .cons v.ty.reads <| .cons (v.kind.reads (by omega)) <|
      .cons (reads_bool v.parameter) <| .cons (reads_uint64 v.stringLength) <|
      .one hdimensions) (by omega)

theorem reads_variables {vs : List Variable} (h : (list Variable.toJson vs).depth ≤ levels) :
    Reads (readList levels (Variable.read (levels - 1))) (list Variable.toJson vs) vs :=
  reads_list h fun v _ hv => v.reads (by omega)

/-! ## Expressions -/

theorem Ty.toJson_ne_null (ty : Ty) : ty.toJson ≠ .null := by
  rw [toJson]
  exact Json.noConfusion

theorem reads_returns (returns : Option Ty) :
    Reads (readOption (Ty.read levels)) (option Ty.toJson returns) returns :=
  reads_option Ty.toJson_ne_null fun ty _ => ty.reads

theorem NativeRoutine.reads (routine : NativeRoutine) (h : routine.toJson.depth ≤ levels) :
    Reads (NativeRoutine.read levels) routine.toJson routine := by
  simp only [toJson, depth, depthMembers] at h
  have hflags : Reads (readList (levels - 1) readBool) (list .bool routine.byReference)
      routine.byReference :=
    reads_list (by omega) fun b _ _ => reads_bool b
  have hcode : Reads (readList (levels - 1) (Word.read (levels - 2)))
      (list Word.toJson routine.code) routine.code :=
    reads_list (by omega) fun w _ hw => w.reads (by omega)
  exact Takes.reads
    (.cons (reads_text routine.name) <| .cons hflags <| .cons (reads_returns routine.returns) <|
      .one hcode) (by omega)

theorem Callee.reads (callee : Callee) (h : callee.toJson.depth ≤ levels) :
    Reads (Callee.read levels) callee.toJson callee := by
  cases callee <;> rw [toJson, depth_variant] at h
  case native routine => exact reads_holding (by omega) rfl (routine.reads (by omega))
  case subroutine index => exact reads_holding (by omega) rfl (reads_uint64 index)

/-- The arguments of a call are read by a reader of their own. -/
theorem reads_call {β : Type} {argument : Read Expression} {callee : Callee} {items : List Json}
    {arguments : List Expression} (make : Callee → List Expression → β)
    (h : (Json.object [("callee", callee.toJson), ("arguments", .array items)]).depth ≤ levels)
    (harguments : List.Forall₂ (Reads argument) items arguments) :
    Reads (readCall levels argument make)
      (.object [("callee", callee.toJson), ("arguments", .array items)])
      (make callee arguments) := by
  simp only [depth, depthMembers] at h
  exact Takes.reads
    (.cons (callee.reads (by omega)) (.one (reads_array (by omega) harguments))) (by omega)

namespace Expression

/-- The reader of expressions in a list inside an expression that has `k + 3` levels left. -/
def readItem : Nat → Read Expression
  | 0 => tooDeep
  | k + 1 => read k

theorem read_add_three (k : Nat) : read (k + 3) = readWith (k + 3) (read k) (readItem k) := by
  cases k <;> rfl

theorem three_le_depth (e : Expression) : 3 ≤ e.toJson.depth := by
  cases e with
  | literal value ty => cases value <;> simp [toJson, Literal.toJson]
  | _ => simp [toJson, depth]

/-- An expression is read through the variant that its kind names. -/
theorem reads_kind {k : Nat} {name : String} {v : Variant (Ty → Expression)} {body : Json}
    {make : Ty → Expression} (hv : (variants (k + 1) (read k) (readItem k)).lookup name = some v)
    (hbody : Reads v.readBody body make) {ty : Ty} :
    Reads (read (k + 3)) (node (.variant name body) ty) (make ty) := by
  rw [read_add_three]
  have hkind : Reads (readChoice (k + 2) (variants (k + 1) (read k) (readItem k)))
      (.variant name body) make := reads_variant (by omega) hv hbody
  exact Takes.reads (.cons hkind (.one ty.reads)) (by omega)

theorem toJson_ne_null (e : Expression) : e.toJson ≠ .null := by
  intro hnull
  have hdepth := e.three_le_depth
  simp [hnull, depth] at hdepth

end Expression

mutual

/-- An expression is read from what was written of it, if the levels left cover its depth. -/
theorem Expression.reads (e : Expression) {levels : Nat} (h : e.toJson.depth ≤ levels) :
    Reads (Expression.read levels) e.toJson e := by
  -- The expression, its kind and what the kind holds are three levels; a field that is an
  -- expression has the other `k`, and a list of expressions takes one of these.
  obtain ⟨k, rfl⟩ := Nat.exists_eq_add_of_le' (e.three_le_depth.trans h)
  cases e <;> simp only [toJson, depth_node, depth_variant, depth, depthMembers] at h ⊢
  case literal value ty =>
    refine reads_kind rfl ?_
    exact (value.reads (by omega)).map literal
  case input name index ty =>
    refine reads_kind rfl ?_
    exact Takes.reads (.cons (reads_text name) (.one (reads_int64 index))) (by omega)
  case constant name value ty =>
    refine reads_kind rfl ?_
    exact Takes.reads (.cons (reads_text name) (.one (value.reads (by omega)))) (by omega)
  case colour name value ty =>
    refine reads_kind rfl ?_
    exact Takes.reads (.cons (reads_text name) (.one (reads_int64 value))) (by omega)
  case var id indexes ty =>
    obtain ⟨k, rfl⟩ : ∃ k', k = k' + 1 := ⟨k - 1, by omega⟩
    have hindexes : Reads (readList (k + 1) (readItem (k + 1))) (.array (listToJson indexes))
        indexes := reads_array (by omega) (Expression.readsAll indexes (by omega))
    refine reads_kind rfl ?_
    exact Takes.reads (.cons (id.reads (by omega)) (.one hindexes)) (by omega)
  case address id ty =>
    refine reads_kind rfl ?_
    exact Takes.reads (.one (id.reads (by omega))) (by omega)
  case call callee arguments ty =>
    obtain ⟨k, rfl⟩ : ∃ k', k = k' + 1 := ⟨k - 1, by omega⟩
    have harguments : List.Forall₂ (Reads (readItem (k + 1))) (listToJson arguments) arguments :=
      Expression.readsAll arguments (by omega)
    refine reads_kind rfl ?_
    exact reads_call call (by simp only [depth, depthMembers]; omega) harguments
  case unary operator operand ty =>
    refine reads_kind rfl ?_
    exact Takes.reads (.cons operator.reads (.one (operand.reads (by omega)))) (by omega)
  case binary operator left right ty =>
    refine reads_kind rfl ?_
    exact Takes.reads (.cons operator.reads (.cons (left.reads (by omega))
        (.one (right.reads (by omega))))) (by omega)
  case cast operand ty =>
    refine reads_kind rfl ?_
    exact Takes.reads (.one (operand.reads (by omega))) (by omega)

theorem Expression.readsAll (es : List Expression) {levels : Nat}
    (h : depthItems (Expression.listToJson es) ≤ levels) :
    List.Forall₂ (Reads (Expression.read levels)) (Expression.listToJson es) es := by
  cases es with
  | nil => exact .nil
  | cons e es =>
    rw [listToJson, depthItems] at h
    exact .cons (e.reads (by omega)) (Expression.readsAll es (by omega))

end

theorem Call.reads (call : Call) (h : call.toJson.depth ≤ levels) :
    Reads (Call.read levels) call.toJson call := by
  have hdepth := h
  simp only [toJson, depth, depthMembers] at hdepth
  exact reads_call Call.mk h (Expression.readsAll call.arguments (by omega))

/-! ## Statements -/

theorem Assignment.reads (a : Assignment) (h : a.toJson.depth ≤ levels) :
    Reads (Assignment.read levels) a.toJson a := by
  simp only [toJson, depth, depthMembers] at h
  have hindexes : Reads (readList (levels - 1) (Expression.read (levels - 2)))
      (.array (Expression.listToJson a.indexes)) a.indexes :=
    reads_array (by omega) (Expression.readsAll a.indexes (by omega))
  exact Takes.reads
    (.cons (a.target.reads (by omega)) (.cons hindexes (.one (a.value.reads (by omega)))))
    (by omega)

namespace Statement

def readInner : Nat → Read Statement
  | k + 3 => read k
  | _ => tooDeep

theorem read_eq_readWith (levels : Nat) : read levels = readWith levels (readInner levels) := by
  match levels with
  | 0 | 1 | 2 | _ + 3 => rfl

end Statement

mutual

theorem Statement.reads (s : Statement) {levels : Nat} (h : s.toJson.depth ≤ levels) :
    Reads (Statement.read levels) s.toJson s := by
  rw [read_eq_readWith]
  -- Only statements with a body need levels for the statements inside: `pass` and a bare return
  -- are read with fewer than three left.
  cases s <;> simp only [toJson, depth_variant, depth, depthMembers] at h ⊢
  case assign a => exact reads_holding (by omega) rfl (a.reads (by omega))
  case call c => exact reads_holding (by omega) rfl (c.reads (by omega))
  case ifElse condition thenBody elseBody =>
    obtain ⟨k, rfl⟩ : ∃ k, levels = k + 3 := ⟨levels - 3, by omega⟩
    have hthen : List.Forall₂ (Reads (readInner (k + 3))) (listToJson thenBody) thenBody :=
      Statement.readsAll thenBody (by omega)
    have helse : List.Forall₂ (Reads (readInner (k + 3))) (listToJson elseBody) elseBody :=
      Statement.readsAll elseBody (by omega)
    refine reads_variant (by omega) rfl ?_
    exact Takes.reads (.cons (condition.reads (by omega))
      (.cons (reads_array (by omega) hthen) (.one (reads_array (by omega) helse)))) (by omega)
  case forLoop initial condition change body =>
    obtain ⟨k, rfl⟩ : ∃ k, levels = k + 3 := ⟨levels - 3, by omega⟩
    have hbody : List.Forall₂ (Reads (readInner (k + 3))) (listToJson body) body :=
      Statement.readsAll body (by omega)
    refine reads_variant (by omega) rfl ?_
    exact Takes.reads (.cons (initial.reads (by omega)) (.cons (condition.reads (by omega))
      (.cons (change.reads (by omega)) (.one (reads_array (by omega) hbody))))) (by omega)
  case repeatUntil condition body =>
    obtain ⟨k, rfl⟩ : ∃ k, levels = k + 3 := ⟨levels - 3, by omega⟩
    have hbody : List.Forall₂ (Reads (readInner (k + 3))) (listToJson body) body :=
      Statement.readsAll body (by omega)
    refine reads_variant (by omega) rfl ?_
    exact Takes.reads
      (.cons (condition.reads (by omega)) (.one (reads_array (by omega) hbody))) (by omega)
  case whileDo condition body =>
    obtain ⟨k, rfl⟩ : ∃ k, levels = k + 3 := ⟨levels - 3, by omega⟩
    have hbody : List.Forall₂ (Reads (readInner (k + 3))) (listToJson body) body :=
      Statement.readsAll body (by omega)
    refine reads_variant (by omega) rfl ?_
    exact Takes.reads
      (.cons (condition.reads (by omega)) (.one (reads_array (by omega) hbody))) (by omega)
  case ret value =>
    refine reads_holding (by omega) rfl (reads_option Expression.toJson_ne_null ?_)
    rintro e rfl
    exact e.reads (by simp only [option] at h; omega)
  case pass => exact reads_plain rfl

theorem Statement.readsAll (ss : List Statement) {levels : Nat}
    (h : depthItems (Statement.listToJson ss) ≤ levels) :
    List.Forall₂ (Reads (Statement.read levels)) (Statement.listToJson ss) ss := by
  cases ss with
  | nil => exact .nil
  | cons s ss =>
    rw [listToJson, depthItems] at h
    exact .cons (s.reads (by omega)) (Statement.readsAll ss (by omega))

end

/-! ## Routines -/

mutual

theorem Subroutine.reads (s : Subroutine) {levels : Nat} (h : s.toJson.depth ≤ levels) :
    Reads (Subroutine.read levels) s.toJson s := by
  obtain ⟨index, name, returns, resultVariable, declarations, subroutines, statements⟩ := s
  simp only [toJson, depth, depthMembers] at h ⊢
  obtain ⟨k, rfl⟩ : ∃ k, levels = k + 2 := ⟨levels - 2, by omega⟩
  have hresult : Reads (readOption readUInt64) (option .uint64 resultVariable) resultVariable :=
    reads_option (by intro n hn; cases hn) fun n _ => reads_uint64 n
  have hinner : List.Forall₂ (Reads (Subroutine.read k)) (listToJson subroutines) subroutines :=
    Subroutine.readsAll subroutines (by omega)
  have hstatements : List.Forall₂ (Reads (Statement.read k)) (Statement.listToJson statements)
      statements := Statement.readsAll statements (by omega)
  exact Takes.reads
    (.cons (reads_uint64 index) <| .cons (reads_text name) <| .cons (reads_returns returns) <|
      .cons hresult <| .cons (reads_variables (by omega)) <|
      .cons (reads_array (by omega) hinner) <| .one (reads_array (by omega) hstatements))
    (by omega)

theorem Subroutine.readsAll (ss : List Subroutine) {levels : Nat}
    (h : depthItems (Subroutine.listToJson ss) ≤ levels) :
    List.Forall₂ (Reads (Subroutine.read levels)) (Subroutine.listToJson ss) ss := by
  cases ss with
  | nil => exact .nil
  | cons s ss =>
    rw [listToJson, depthItems] at h
    exact .cons (s.reads (by omega)) (Subroutine.readsAll ss (by omega))

end

theorem Program.reads (p : Program) (h : p.toJson.depth ≤ levels) :
    Reads (Program.read levels) p.toJson p := by
  simp only [toJson, depth, depthMembers] at h
  have hsubroutines : Reads (readList (levels - 1) (Subroutine.read (levels - 2)))
      (.array (Subroutine.listToJson p.subroutines)) p.subroutines :=
    reads_array (by omega) (Subroutine.readsAll p.subroutines (by omega))
  have hstatements : Reads (readList (levels - 1) (Statement.read (levels - 2)))
      (.array (Statement.listToJson p.statements)) p.statements :=
    reads_array (by omega) (Statement.readsAll p.statements (by omega))
  exact Takes.reads
    (.cons (reads_text p.name) <| .cons p.language.reads <|
      .cons (reads_variables (by omega)) <| .cons hsubroutines <| .one hstatements)
    (by omega)

/-- **A routine tree survives its text.**  A program whose value is nested less than 128 arrays and
objects deep is read back from its own text exactly as it was. -/
theorem Program.readAs_render (p : Program) (h : p.toJson.depth < 128) :
    CommandLine.readAs (Program.read maxLevels) p.toJson.render = .ok p := by
  have hread : Program.read maxLevels p.toJson.draft = .ok p := p.reads (Nat.le_of_lt_succ h)
  rw [CommandLine.readAs, ofText_render, Document.read, hread]
  rfl

def Expression.castTimes : Nat → Expression → Expression
  | 0, e => e
  | n + 1, e => .cast (castTimes n e) .integer

/-- A program as deep as may be read, with escaped and other characters in its texts and the extreme
values of words. -/
def specimen : Program where
  name := "\"a\\b\"\n\x01é"
  language := .typeScript
  declarations :=
    [⟨"x", .boolInt, .turtle .direction, false, UInt64.ofNat (UInt64.size - 1),
      [⟨Int64.minValue, Int64.maxValue⟩]⟩]
  subroutines :=
    [{ index := 1
       name := ""
       returns := some .string
       resultVariable := some 0
       subroutines := [{ index := 2, name := "inner", statements := [.ret none, .pass] }]
       statements :=
        [.ret (some (.binary .plus (.character '\x7f') (.var ⟨1, 0⟩ [.integer 3] .string) .string)),
          .call ⟨.native ⟨"blot", [true], none, [.op .blot, .int (-1), .call 2]⟩, []⟩] }]
  statements :=
    [.whileDo (.unary .not (.colour "red" 255 .integer) .boolean)
        [.ifElse (.input "mouse" (-1) .integer) [.pass] []],
      .assign ⟨⟨0, 0⟩, [], .castTimes 40 (.integer 0)⟩]

theorem Program.readAs_render_specimen :
    specimen.toJson.depth = 127 ∧
      CommandLine.readAs (Program.read maxLevels) specimen.toJson.render = .ok specimen := by
  have hdepth : specimen.toJson.depth = 127 := by decide +kernel
  exact ⟨hdepth, specimen.readAs_render (by rw [hdepth]; decide)⟩

end TurtleCode
