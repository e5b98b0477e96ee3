import TurtleCode.Proofs.ControlFlow
import TurtleCode.Proofs.Correspondence
import TurtleCode.Proofs.Phrases

/-!
# Moving the lines of statements

The lines of statements are made for an address.  Made for another one they are the same, but for
the operands of jumps, which move along; no jump goes out of the lines or past the line after them;
and the lines of a list are those of its parts one after another.

* `Line.moved k`: a line with the operands of its jumps raised by `k`.
* `Line.JumpFree`: code that makes no jumps of its own, and so stays as it is.
* `Setting.statements_moved`: the lines for an address that is `k` higher.
* `Setting.LineOf.jumps_within`: where the jumps of a line of statements go.
* `Setting.statements_append`: the lines of a list in two parts.
* `Setting.statements_relocatable`: all of it together.
-/

namespace TurtleCode

open Result (Both)

def Opcode.jumps : Opcode → Bool
  | .jump | .ifno => true
  | _ => false

namespace Line

def raise (k : Nat) (w : Word) (rest : Line) : Line :=
  match w, rest with
  | .op op, .int n :: rest' =>
    if op.jumps then .op op :: .int (n + Int64.ofNat k) :: rest' else .op op :: .int n :: rest'
  | _, _ => w :: rest

/-- A line with the operands of its jumps raised by `k`. -/
def moved (k : Nat) (line : Line) : Line := line.foldr (raise k) []

def JumpFree (line : Line) : Prop := ∀ op ∈ line.opcodes, op.jumps = false

theorem raise_of_not_jumps (k : Nat) {w : Word} (h : ∀ op, w = .op op → op.jumps = false)
    (rest : Line) : raise k w rest = w :: rest := by
  unfold raise
  split
  · next op n rest' => rw [h op rfl, if_neg Bool.false_ne_true]
  · rfl

namespace JumpFree

variable {a b : Line}

theorem nil : JumpFree [] := fun _ h => nomatch h

theorem append (ha : JumpFree a) (hb : JumpFree b) : JumpFree (a ++ b) := by
  intro op hop
  rw [opcodes_append] at hop
  exact (List.mem_append.mp hop).elim (ha op) (hb op)

theorem of_instr {op : Opcode} (h : op.jumps = false) (operands : List Int64) :
    JumpFree (instr op operands) := by
  intro code hcode
  rw [opcodes_instr] at hcode
  obtain rfl := List.mem_singleton.mp hcode
  exact h

/-- Code without control of its own makes no jumps, wherever its native code makes none. -/
theorem codeLaw (s : Setting) : CodeLaw s JumpFree where
  nil := nil
  append := append
  ordinary {op operands} h _ := of_instr (by revert h; cases op <;> decide) operands
  call _ := by
    intro op hop
    obtain rfl : op = .subr := List.mem_singleton.mp hop
    rfl

theorem literal (value : Literal) : JumpFree value.code := by
  cases value <;> exact of_instr rfl _

theorem moved_append (h : JumpFree a) (k : Nat) (b : Line) :
    moved k (a ++ b) = a ++ moved k b := by
  induction a with
  | nil => rfl
  | cons w rest ih =>
    have hrest : JumpFree rest := by
      intro op hop
      refine h op ?_
      rw [mem_opcodes] at hop ⊢
      exact List.mem_cons_of_mem _ hop
    show raise k w (moved k (rest ++ b)) = _
    rw [ih hrest, raise_of_not_jumps]
    · rfl
    · rintro op rfl
      exact h op List.mem_cons_self

theorem moved_eq (h : JumpFree a) (k : Nat) : moved k a = a := by
  have := h.moved_append k []
  rwa [List.append_nil, show moved k [] = [] from rfl, List.append_nil] at this

end JumpFree

theorem mem_targets_append {a b : Line} {op : Opcode} {w : Option Word}
    (h : (op, w) ∈ (a ++ b).targets) : op ∈ a.opcodes ∨ (op, w) ∈ b.targets := by
  induction a with
  | nil => exact .inr h
  | cons v rest ih =>
    cases v with
    | op code =>
      rw [List.cons_append, targets] at h
      split at h
      · rcases List.mem_cons.mp h with h | h
        · cases h
          exact .inl List.mem_cons_self
        · exact (ih h).imp_left (List.mem_cons_of_mem _)
      · exact (ih h).imp_left (List.mem_cons_of_mem _)
    | int n => exact ih h
    | call index => exact ih h

end Line

namespace Setting

open Line (JumpFree)

/-! ## Moved lines -/

theorem operand_add (n k : Nat) :
    Address.operand n + Int64.ofNat k = Address.operand (n + k) := by
  rw [Address.operand, Address.operand, Int64.ofNat_add]

theorem moved_jumpTo (k address : Nat) : (jumpTo address).moved k = jumpTo (address + k) := by
  rw [jumpTo, jumpTo, ← operand_add]
  rfl

theorem moved_appendJumpTo {code : Line} (h : JumpFree code) (k address : Nat) :
    (code ++ jumpTo address).moved k = code ++ jumpTo (address + k) := by
  rw [h.moved_append, moved_jumpTo]

theorem moved_unlessJumpTo {code : Line} (h : JumpFree code) (k address : Nat) :
    (code ++ unlessJumpTo address).moved k = code ++ unlessJumpTo (address + k) := by
  rw [h.moved_append, unlessJumpTo, unlessJumpTo, ← operand_add]
  rfl

theorem add_moved {a b k : Nat} (h : a + b + k < UInt64.size) :
    Both (fun x y => x = a + b ∧ y = a + b + k) (Address.add a b) (Address.add (a + k) b) := by
  rw [Address.add_eq_ok.mpr ⟨by omega, rfl⟩, Address.add_eq_ok.mpr ⟨by omega, rfl⟩]
  exact .ok ⟨rfl, by omega⟩

variable {s : Setting} {routine : Routine}

theorem returnLine_jumpFree {value : Option Expression} {line : Line}
    (hx : ∀ e, value = some e → ∀ x ∈ e.sites, x.Obeys JumpFree)
    (h : s.returnLine value routine = .ok line) : line.JumpFree := by
  have law := JumpFree.codeLaw s
  cases routine with
  | program p =>
    obtain rfl := Except.ok.inj h
    exact .of_instr rfl []
  | subroutine sub =>
    obtain ⟨result, pointer, _, rfl, hr⟩ := returnLine_subroutine_ok h
    refine .append ?_ (.append (.of_instr rfl _) (.of_instr rfl _))
    rcases hr with hr | ⟨e, first, cell, he, hf, _, rfl⟩
    · exact law.copyResult hr
    · exact .append (law.expression e (hx e he) hf) (.of_instr rfl _)

/-- How many lines there are is known in the steps that follow. -/
theorem statements_counted {ss : List Statement} {start : Nat} {y : Result (List Line)}
    {R : List Line → List Line → Prop} (h : Both R (s.statements routine start ss) y) :
    Both (fun a b => R a b ∧ a.length = Statement.lineCountAll ss)
      (s.statements routine start ss) y := by
  refine h.and_eq.imp ?_
  rintro a b ⟨hR, ha, _⟩
  exact ⟨hR, statements_length ss ha⟩

mutual

theorem statement_moved (k : Nat) : ∀ (st : Statement) (start : Nat),
    (∀ x ∈ st.sites, x.Obeys JumpFree) → start + st.lineCount + k < UInt64.size →
    Both (fun a b => b = a.map (Line.moved k)) (s.statement routine start st)
      (s.statement routine (start + k) st)
  | .assign a, start, hx, hsize => by
    rw [Statement.sites] at hx
    rw [statement, statement]
    refine .bind_same ?_
    intro code hcode
    refine .ok ?_
    rw [List.map_singleton, ((JumpFree.codeLaw s).assignment hx hcode).moved_eq]
  | .call c, start, hx, hsize => by
    rw [Statement.sites] at hx
    rw [statement, statement]
    refine .bind_same ?_
    intro code hcode
    refine .ok ?_
    rw [List.map_singleton, ((JumpFree.codeLaw s).call' hx hcode).moved_eq]
  | .ret value, start, hx, hsize => by
    rw [statement, statement]
    refine .bind_same ?_
    intro line hline
    have hfree : JumpFree line := by
      refine returnLine_jumpFree (fun e he x hm => hx x ?_) hline
      subst he
      rwa [Statement.sites]
    refine .ok ?_
    rw [List.map_singleton, hfree.moved_eq]
  | .pass, start, hx, hsize => by
    rw [statement, statement]
    exact .ok rfl
  | .ifElse condition thenBody elseBody, start, hx, hsize => by
    rw [Statement.sites] at hx
    rw [Statement.lineCount] at hsize
    rw [statement, statement]
    refine .bind_same ?_
    intro test htest
    have hfree : JumpFree test :=
      (JumpFree.codeLaw s).expression condition (fun x hm => hx x (by simp [hm])) htest
    refine .bind (add_moved (by omega)) ?_
    rintro _ _ ⟨rfl, rfl⟩
    have hthen := statements_moved k thenBody (start + 1) (fun x hm => hx x (by simp [hm]))
      (by omega)
    refine .bind (statements_counted hthen) ?_
    rintro thenLines _ ⟨rfl, hcount⟩
    rw [List.length_map, Nat.add_right_comm start k 1]
    refine .bind (add_moved (by omega)) ?_
    rintro _ _ ⟨rfl, rfl⟩
    by_cases hempty : elseBody.isEmpty = true
    · rw [if_pos hempty, if_pos hempty]
      refine .ok ?_
      rw [List.map_cons, moved_unlessJumpTo hfree]
    · rw [if_neg hempty] at hsize
      rw [if_neg hempty, if_neg hempty]
      refine .bind (add_moved (by omega)) ?_
      rintro _ _ ⟨rfl, rfl⟩
      have helse := statements_moved k elseBody (start + 1 + thenLines.length + 1)
        (fun x hm => hx x (by simp [hm])) (by omega)
      refine .bind (statements_counted helse) ?_
      rintro elseLines _ ⟨rfl, hcount'⟩
      rw [List.length_map]
      refine .bind (add_moved (by omega)) ?_
      rintro _ _ ⟨rfl, rfl⟩
      refine .ok ?_
      rw [List.map_append, List.map_cons, List.map_cons, moved_unlessJumpTo hfree, moved_jumpTo]
  | .whileDo condition body, start, hx, hsize => by
    rw [Statement.sites] at hx
    rw [Statement.lineCount] at hsize
    rw [statement, statement]
    refine .bind_same ?_
    intro test htest
    have hfree : JumpFree test :=
      (JumpFree.codeLaw s).expression condition (fun x hm => hx x (by simp [hm])) htest
    refine .bind (add_moved (by omega)) ?_
    rintro _ _ ⟨rfl, rfl⟩
    have hbody := statements_moved k body (start + 1) (fun x hm => hx x (by simp [hm])) (by omega)
    refine .bind (statements_counted hbody) ?_
    rintro lines _ ⟨rfl, hcount⟩
    rw [List.length_map, Nat.add_right_comm start k 1]
    refine .bind (add_moved (by omega)) ?_
    rintro _ _ ⟨rfl, rfl⟩
    refine .bind (add_moved (by omega)) ?_
    rintro _ _ ⟨rfl, rfl⟩
    refine .ok ?_
    rw [List.map_append, List.map_cons, List.map_singleton, moved_unlessJumpTo hfree, moved_jumpTo]
  | .repeatUntil condition body, start, hx, hsize => by
    rw [Statement.sites] at hx
    rw [Statement.lineCount] at hsize
    rw [statement, statement]
    refine .bind (statements_moved k body start (fun x hm => hx x (by simp [hm])) (by omega)) ?_
    rintro lines _ rfl
    refine .bind_same ?_
    intro test htest
    have hfree : JumpFree test :=
      (JumpFree.codeLaw s).expression condition (fun x hm => hx x (by simp [hm])) htest
    refine .ok ?_
    rw [List.map_append, List.map_singleton, moved_unlessJumpTo hfree]
  | .forLoop initial condition change body, start, hx, hsize => by
    rw [Statement.sites] at hx
    rw [Statement.lineCount] at hsize
    rw [statement, statement]
    have law := JumpFree.codeLaw s
    refine .bind_same ?_
    intro first hfirst
    refine .bind (add_moved (by omega)) ?_
    rintro _ _ ⟨rfl, rfl⟩
    refine .bind_same ?_
    intro test htest
    refine .bind (add_moved (by omega)) ?_
    rintro _ _ ⟨rfl, rfl⟩
    have hbody := statements_moved k body (start + 1 + 1) (fun x hm => hx x (by simp [hm]))
      (by omega)
    refine .bind (statements_counted hbody) ?_
    rintro lines _ ⟨rfl, hcount⟩
    rw [List.length_map]
    refine .bind (add_moved (by omega)) ?_
    rintro _ _ ⟨rfl, rfl⟩
    refine .bind (add_moved (by omega)) ?_
    rintro _ _ ⟨rfl, rfl⟩
    refine .bind_same ?_
    intro step hstep
    have hfirst := law.assignment (fun x hm => hx x (by simp [hm])) hfirst
    have htest := law.expression condition (fun x hm => hx x (by simp [hm])) htest
    have hstep := law.assignment (fun x hm => hx x (by simp [hm])) hstep
    refine .ok ?_
    rw [List.map_append, List.map_cons, List.map_cons, List.map_singleton, hfirst.moved_eq,
      moved_unlessJumpTo htest, moved_appendJumpTo hstep]

/-- **The lines for an address that is `k` higher.**  Statements can be made for both addresses or
fail with the same fault, and the lines differ in the operands of their jumps. -/
theorem statements_moved (k : Nat) : ∀ (ss : List Statement) (start : Nat),
    (∀ x ∈ Statement.allSites ss, x.Obeys JumpFree) →
    start + Statement.lineCountAll ss + k < UInt64.size →
    Both (fun a b => b = a.map (Line.moved k)) (s.statements routine start ss)
      (s.statements routine (start + k) ss)
  | [], start, hx, hsize => by
    rw [statements, statements]
    exact .ok rfl
  | head :: rest, start, hx, hsize => by
    rw [Statement.allSites] at hx
    rw [Statement.lineCountAll] at hsize
    rw [statements, statements, Address.check_eq_ok.mpr ⟨by omega, rfl⟩,
      Address.check_eq_ok.mpr ⟨by omega, rfl⟩]
    have hhead := statement_moved k head start (fun x hm => hx x (List.mem_append_left _ hm))
      (by omega)
    show Both _ (s.statement routine start head >>= _) (s.statement routine (start + k) head >>= _)
    refine .bind hhead.and_eq ?_
    rintro here _ ⟨rfl, hlines, _⟩
    have hcount := statement_length head hlines
    rw [List.length_map, Nat.add_right_comm]
    have hrest := statements_moved k rest (start + here.length)
      (fun x hm => hx x (List.mem_append_right _ hm)) (by omega)
    refine .bind hrest ?_
    rintro more _ rfl
    refine .ok ?_
    rw [List.map_append]

end

/-! ## Where jumps go -/

theorem operand_within {lo hi target : Nat} (h : Target lo hi target)
    (hhi : hi < UInt64.size / 2) :
    (lo : Int) ≤ (Address.operand target).toInt ∧ (Address.operand target).toInt ≤ hi := by
  have hlt : target < UInt64.size / 2 := Nat.lt_of_le_of_lt h.ge hhi
  rw [Address.operand, Int64.toInt_ofNat_of_lt hlt]
  exact ⟨Int.ofNat_le.mpr h.le, Int.ofNat_le.mpr h.ge⟩

theorem LineOf.jumps_within {lo hi : Nat} {line : Line}
    (h : s.LineOf routine (·.Obeys JumpFree) lo hi line) (hhi : hi < UInt64.size / 2) {op : Opcode}
    {w : Option Word} (hw : (op, w) ∈ line.targets) (hop : op.jumps = true) :
    ∃ n : Int64, w = some (.int n) ∧ lo ≤ n.toInt ∧ n.toInt ≤ hi := by
  have law := JumpFree.codeLaw s
  have none {code : Line} (hcode : JumpFree code) (h : (op, w) ∈ code.targets) : False := by
    rw [← List.append_nil code] at h
    have := hcode op ((Line.mem_targets_append h).resolve_right List.not_mem_nil)
    rw [hop] at this
    cases this
  -- the one jump of a line is at its end
  have last {code : Line} {exit : Opcode} {target : Nat} (hcode : JumpFree code)
      (hexit : exit.takesAddress = true) (htarget : Target lo hi target)
      (h : (op, w) ∈ (code ++ instr exit [Address.operand target]).targets) :
      ∃ n : Int64, w = some (.int n) ∧ lo ≤ n.toInt ∧ n.toInt ≤ hi := by
    rcases Line.mem_targets_append h with h | h
    · rw [hcode op h] at hop
      cases hop
    · have htargets : (instr exit [Address.operand target]).targets =
          [(exit, some (.int (Address.operand target)))] := by
        show Line.targets (.op exit :: [.int (Address.operand target)]) = _
        rw [Line.targets, hexit]
        rfl
      rw [htargets] at h
      cases List.mem_singleton.mp h
      exact ⟨_, rfl, operand_within htarget hhi⟩
  cases h with
  | assign hx h => exact (none (law.assignment hx h) hw).elim
  | call hx h => exact (none (law.call' hx h) hw).elim
  | test hx h ht => exact last (law.expression _ hx h) rfl ht hw
  | skip ht => exact last .nil rfl ht hw
  | change hx h ht => exact last (law.assignment hx h) rfl ht hw
  | ret hx h => exact (none (returnLine_jumpFree hx h) hw).elim

/-! ## Lists in two parts -/

theorem statements_append (start : Nat) (ss more : List Statement) :
    s.statements routine start (ss ++ more) = (do
      let first ← s.statements routine start ss
      let second ← s.statements routine (start + first.length) more
      return first ++ second) := by
  induction ss generalizing start with
  | nil =>
    rw [List.nil_append, statements]
    show _ = s.statements routine start more >>= pure
    rw [bind_pure]
  | cons head rest ih =>
    rw [List.cons_append, statements, statements]
    simp only [bind_assoc, pure_bind, ih, List.length_append, List.append_assoc, Nat.add_assoc]

/-- **Statement code is relocatable, closed and compositional.**  Let native code among the
statements make no jumps, and let the addresses be operands.  Made for an address that is `k`
higher, the statements fail with the same fault or become the same lines with the operands of all
jumps raised by `k`.  Jumps go to one of the lines or to the line after the last one.  Any
statements before others become the lines that they become alone, and the others follow them. -/
theorem statements_relocatable (s : Setting) (routine : Routine) (start : Nat) :
    (∀ ss k, (∀ x ∈ Statement.allSites ss, ∀ r, x.native? = some r → r.code.JumpFree) →
      start + Statement.lineCountAll ss + k < UInt64.size / 2 →
      Both (fun a b => b = a.map (Line.moved k) ∧ a.length = Statement.lineCountAll ss ∧
          ∀ line ∈ a, ∀ op w, (op, w) ∈ line.targets → op.jumps = true →
            ∃ n : Int64, w = some (.int n) ∧ start ≤ n.toInt ∧ n.toInt ≤ (start + a.length : Nat))
        (s.statements routine start ss) (s.statements routine (start + k) ss)) ∧
    ∀ ss more, s.statements routine start (ss ++ more) = (do
      let first ← s.statements routine start ss
      let second ← s.statements routine (start + first.length) more
      return first ++ second) := by
  refine ⟨?_, statements_append start⟩
  intro ss k hn hrange
  have hx : ∀ x ∈ Statement.allSites ss, x.Obeys JumpFree :=
    fun x hm => ⟨hn x hm, fun value _ => JumpFree.literal value⟩
  have hmoved : Both _ (s.statements routine start ss) _ :=
    statements_moved k ss start hx (Nat.lt_of_lt_of_le hrange (Nat.div_le_self _ 2))
  refine hmoved.and_eq.imp ?_
  rintro a b ⟨hb, ha, _⟩
  have hcount := statements_length ss ha
  refine ⟨hb, hcount, ?_⟩
  intro line hl op w hw hop
  exact (statements_lines ss hx ha line hl).jumps_within (by omega) hw hop

theorem statements_relocatable_drawOrHalt :
    let s : Setting := ⟨⟨.empty "draw" .basic, []⟩, {}⟩
    let main : Routine := .program (.empty "draw" .basic)
    (∀ x ∈ Statement.allSites drawOrHalt, ∀ r, x.native? = some r → r.code.JumpFree) ∧
      5 + Statement.lineCountAll drawOrHalt + 7 < UInt64.size / 2 ∧
      s.statements main 5 drawOrHalt = .ok drawOrHaltLines ∧
      s.statements main (5 + 7) drawOrHalt = .ok
        [instr .ldin [-1] ++ instr .ifno [18], instr .ldin [0] ++ instr .ifno [16],
          instr .halt [], instr .jump [17], instr .blot [], instr .jump [12]] ∧
      ∀ line ∈ drawOrHaltLines, ∀ op w, (op, w) ∈ line.targets → op.jumps = true →
        ∃ n : Int64, w = some (.int n) ∧ 5 ≤ n.toInt ∧ n.toInt ≤ 11 := by
  intro s main
  have hnative : ∀ x ∈ Statement.allSites drawOrHalt, ∀ r, x.native? = some r →
      r.code.JumpFree := by
    intro x hx r hr
    have hmem := List.mem_filterMap.mpr ⟨x, hx, hr⟩
    obtain rfl : r = ⟨"blot", [], none, instr .blot []⟩ := List.mem_singleton.mp hmem
    exact .of_instr rfl []
  have hrange : 5 + Statement.lineCountAll drawOrHalt + 7 < UInt64.size / 2 := by decide
  have hmoved := (statements_relocatable s main 5).1 drawOrHalt 7 hnative hrange
  have emitted : s.statements main 5 drawOrHalt = .ok drawOrHaltLines := rfl
  refine ⟨hnative, hrange, emitted, ?_⟩
  rw [emitted] at hmoved
  generalize s.statements main (5 + 7) drawOrHalt = y at hmoved ⊢
  cases hmoved with
  | ok h =>
    obtain ⟨rfl, _, hwithin⟩ := h
    exact ⟨rfl, hwithin⟩

end Setting

end TurtleCode
