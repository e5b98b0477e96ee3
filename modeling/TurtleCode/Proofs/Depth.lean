import TurtleCode.Proofs.Course

/-!
# Depths of the operand stack

How many values a line of a routine has on the operand stack at each of its points, above those that
were there before.

* `StackEffect.through`: the depth after effects one after another, if none of them lacks values.
* `Setting.Exchanges`: code takes `n` values and leaves `m`.  `Setting.exchanges_law` gives this of
  all code of a tree whose sites are balanced (`Site.Balanced`).
* `Drains`: the rest of a line, with `h` values on the stack, finds the operands that it needs and
  has used all of them when the line is left.
* `Setting.Layout.drains`: every linked line does so from its start, the first line of a subroutine
  with its arguments on the stack and all others with nothing.

In a routine a call takes its arguments and leaves nothing.  That it really does is shown for runs.
-/

namespace TurtleCode

/-! ## Effects one after another -/

namespace StackEffect

/-- The depth after something, if there are the values that it takes. -/
def apply (e : StackEffect) (d : Nat) : Option Nat :=
  if e.takes ≤ d then some (d - e.takes + e.leaves) else none

theorem apply_eq_some {e : StackEffect} {d d' : Nat} :
    e.apply d = some d' ↔ ∃ k, d = k + e.takes ∧ d' = k + e.leaves := by
  unfold apply
  constructor
  · intro h
    split at h
    · next hle => exact ⟨d - e.takes, by omega, (Option.some.inj h).symm⟩
    · cases h
  · rintro ⟨k, rfl, rfl⟩
    rw [if_pos (Nat.le_add_left _ _), Nat.add_sub_cancel]

theorem takes_le {e : StackEffect} {d d' : Nat} (h : e.apply d = some d') : e.takes ≤ d := by
  obtain ⟨k, rfl, _⟩ := apply_eq_some.mp h
  exact Nat.le_add_left _ _

theorem apply_above {e : StackEffect} {d d' : Nat} (h : e.apply d = some d') (k : Nat) :
    e.apply (k + d) = some (k + d') := by
  obtain ⟨j, rfl, rfl⟩ := apply_eq_some.mp h
  exact apply_eq_some.mpr ⟨k + j, by omega, by omega⟩

@[simp] theorem apply_takes (n m : Nat) : (⟨n, m⟩ : StackEffect).apply n = some m :=
  apply_eq_some.mpr ⟨0, (Nat.zero_add n).symm, (Nat.zero_add m).symm⟩

@[simp] theorem apply_zero (d : Nat) : (⟨0, 0⟩ : StackEffect).apply d = some d :=
  apply_eq_some.mpr ⟨d, rfl, rfl⟩

def through : List StackEffect → Nat → Option Nat
  | [], d => some d
  | e :: rest, d => (e.apply d).bind (through rest)

theorem through_append (as bs : List StackEffect) (d : Nat) :
    through (as ++ bs) d = (through as d).bind (through bs) := by
  induction as generalizing d with
  | nil => rfl
  | cons e rest ih =>
    rw [List.cons_append, through, through]
    cases e.apply d with
    | none => rfl
    | some d' => exact ih d'

theorem through_above {as : List StackEffect} {d d' : Nat} (h : through as d = some d') (k : Nat) :
    through as (k + d) = some (k + d') := by
  induction as generalizing d with
  | nil =>
    obtain rfl := Option.some.inj h
    rfl
  | cons e rest ih =>
    obtain ⟨next, he, h⟩ := Option.bind_eq_some_iff.mp h
    rw [through, apply_above he k]
    exact ih h

end StackEffect

/-- The effect of an opcode.  Those that only native code is made of have the effects given. -/
def Opcode.stackEffect (others : Opcode → StackEffect) (op : Opcode) : StackEffect :=
  op.effect?.getD (others op)

theorem Opcode.stackEffect_eq {others : Opcode → StackEffect} {op : Opcode} {e : StackEffect}
    (h : op.effect? = some e) : op.stackEffect others = e := by
  rw [stackEffect, h, Option.getD_some]

/-! ## Code that is balanced -/

def MemoryMap.argumentCount (m : MemoryMap) (index : UInt64) : Nat :=
  match m.subroutine index with
  | .ok sub => sub.parameters.length
  | .error _ => 0

theorem MemoryMap.argumentCount_eq {m : MemoryMap} {index : UInt64} {sub : Subroutine}
    (h : m.subroutine index = .ok sub) : m.argumentCount index = sub.parameters.length := by
  rw [argumentCount, h]

/-- Native code that takes `n` values and leaves `m`: complete instructions that neither move
control nor handle frames, with these effects one after another. -/
def Line.Trades (others : Opcode → StackEffect) (n m : Nat) (code : Line) : Prop :=
  ∃ is : List Instruction, code = is.flatMap Instruction.words ∧
    (∀ i ∈ is, i.Complete ∧ i.op.neutral = true) ∧
    StackEffect.through (is.map fun i => i.op.stackEffect others) n = some m

/-- What the stack asks of a site of a tree.  Operators have as many operands as they need, calls of
subroutines as many arguments as there are parameters.  In an expression a subroutine has to be a
function, and native code leaves one value in the place of its arguments.  As a statement native
code leaves none. -/
def Site.Balanced (p : Program) (others : Opcode → StackEffect) : Site → Prop
  | .node (.unary operator _ _) => operator = .neg ∨ operator = .not
  | .node (.binary operator _ _ _) => operator ≠ .neg ∧ operator ≠ .not
  | .node (.call (.native routine) arguments _) => routine.code.Trades others arguments.length 1
  | .node (.call (.subroutine index) arguments _) => ∀ sub ∈ p.allSubroutines, sub.index = index →
      arguments.length = sub.parameters.length ∧ sub.returns.isSome
  | .call ⟨.native routine, arguments⟩ => routine.code.Trades others arguments.length 0
  | .call ⟨.subroutine index, arguments⟩ => ∀ sub ∈ p.allSubroutines, sub.index = index →
      arguments.length = sub.parameters.length
  | _ => True

namespace Setting

variable {s : Setting} {others : Opcode → StackEffect} {n m : Nat} {code : Line}

/-- The effect of a phrase on the stack of its routine: a call takes its arguments. -/
def phraseEffect (s : Setting) (others : Opcode → StackEffect) : Phrase → StackEffect
  | .plain i => i.op.stackEffect others
  | .call index => ⟨s.map.argumentCount index, 0⟩

/-- Code that takes `n` values and leaves `m`, made of complete phrases that neither move control
nor handle frames, and of calls. -/
def Exchanges (s : Setting) (others : Opcode → StackEffect) (n m : Nat) (code : Line) : Prop :=
  ∃ phrases, code = Phrase.text phrases ∧
    (∀ q ∈ phrases, q.Complete ∧ s.Permits Opcode.neutral q) ∧
    StackEffect.through (phrases.map (s.phraseEffect others)) n = some m

theorem Exchanges.single {q : Phrase} (hc : q.Complete) (hp : s.Permits Opcode.neutral q)
    (he : s.phraseEffect others q = ⟨n, m⟩) : s.Exchanges others n m q.words := by
  refine ⟨[q], by simp, List.forall_mem_singleton.mpr ⟨hc, hp⟩, ?_⟩
  rw [List.map_singleton, he, StackEffect.through, StackEffect.apply_takes]
  rfl

theorem Exchanges.of_instr {op : Opcode} {operands : List Int64}
    (hc : Instruction.Complete ⟨op, operands⟩) (hn : op.neutral = true)
    (he : op.effect? = some ⟨n, m⟩) : s.Exchanges others n m (instr op operands) :=
  single (q := .plain ⟨op, operands⟩) hc hn (Opcode.stackEffect_eq he)

theorem Exchanges.of_trades (h : code.Trades others n m) : s.Exchanges others n m code := by
  obtain ⟨is, rfl, hi, he⟩ := h
  refine ⟨is.map .plain, by rw [Phrase.text, List.flatMap_map]; rfl, fun q hq => ?_, ?_⟩
  · obtain ⟨i, hm, rfl⟩ := List.mem_map.mp hq
    exact hi i hm
  · rw [List.map_map]
    exact he

theorem exchanges_law : StackLaw s (s.Exchanges others) where
  nil := ⟨[], rfl, by simp, rfl⟩
  append {n m k a b} ha hb := by
    obtain ⟨as, rfl, hA, hn⟩ := ha
    obtain ⟨bs, rfl, hB, hm⟩ := hb
    refine ⟨as ++ bs, (Phrase.text_append as bs).symm, fun q hq => ?_, ?_⟩
    · rcases List.mem_append.mp hq with hq | hq
      · exact hA q hq
      · exact hB q hq
    · rw [List.map_append, StackEffect.through_append, hn]
      exact hm
  above {n m a} k h := by
    obtain ⟨phrases, rfl, hq, he⟩ := h
    exact ⟨phrases, rfl, hq, StackEffect.through_above he k⟩
  ordinary {op operands n m} ho hlen he := by
    have hne : op ≠ .lstr := by
      rintro rfl
      cases ho
    have hn : op.neutral = true := by
      revert ho
      cases op <;> decide
    exact .of_instr (Instruction.complete_of_length hne hlen) hn he

theorem Exchanges.call {index : UInt64} {sub : Subroutine} (h : s.map.subroutine index = .ok sub) :
    s.Exchanges others sub.parameters.length 0 [.op .subr, .call index] := by
  refine .single (q := .call index) trivial ⟨sub, h⟩ ?_
  rw [phraseEffect, MemoryMap.argumentCount_eq h]

theorem fetchResult_exchanges {index : UInt64} {sub : Subroutine} (hs : sub ∈ s.map.subroutines)
    (hr : sub.returns.isSome) {code : Line} (h : s.fetchResult (.subroutine index) = .ok code) :
    s.Exchanges others 0 1 code := by
  have hsome : s.map.returnsSome = true := List.any_eq_true.mpr ⟨sub, hs, hr⟩
  unfold fetchResult MemoryMap.resultCell at h
  rw [hsome, if_pos rfl] at h
  simp only [Result.bind_eq_ok, Result.map_eq_ok] at h
  obtain ⟨_, ⟨cell, _, rfl⟩, h⟩ := h
  obtain rfl := Result.pure_eq_ok.mp h
  exact exchanges_law.ordinary rfl rfl rfl

theorem passed_native (routine : NativeRoutine) (count : Nat) :
    min (routine.byReference ++ List.replicate count false).length count = count := by
  rw [List.length_append, List.length_replicate]
  exact Nat.min_eq_right (Nat.le_add_left _ _)

theorem meets_of_balanced {p : Program} {options : Options} {x : Site} (hx : x.Balanced p others)
    (ht : ∀ t, x.literal? = some (.string t) → t.toList.length < UInt64.size / 2) :
    x.Meets (Setting.of p options) ((Setting.of p options).Exchanges others) := by
  have literal (value : Literal)
      (h : ∀ t, value = .string t → t.toList.length < UInt64.size / 2) :
      (Setting.of p options).Exchanges others 0 1 value.code := by
    obtain ⟨op, operands, hcode, hc, rfl | rfl⟩ := value.code_eq_instr h
    · rw [hcode]
      exact .of_instr hc rfl rfl
    · rw [hcode]
      exact .of_instr hc rfl rfl
  -- the subroutine that a call finds is one of the program
  have callee {index : UInt64} {count : Nat} {flags : List Bool}
      (hf : (Setting.of p options).passing (.subroutine index) count = .ok flags) :
      ∃ sub, (Setting.of p options).map.subroutine index = .ok sub ∧ sub ∈ p.allSubroutines ∧
        sub.index = index ∧ flags.length = sub.parameters.length := by
    obtain ⟨sub, hs, hflags⟩ := Result.bind_eq_ok.mp hf
    obtain ⟨hm, hi⟩ := MemoryMap.subroutine_ok hs
    refine ⟨sub, hs, hm, hi, ?_⟩
    rw [← Result.pure_eq_ok.mp hflags, List.length_map]
  cases x with
  | call c =>
    obtain ⟨callee', arguments⟩ := c
    cases callee' with
    | native routine =>
      intro flags hf
      rw [← Except.ok.inj hf, passed_native]
      exact .of_trades hx
    | subroutine index =>
      intro flags hf
      obtain ⟨sub, hs, hm, hi, hlen⟩ := callee hf
      have hcount : arguments.length = sub.parameters.length := hx sub hm hi
      rw [hlen, hcount, Nat.min_self]
      exact .call hs
  | node e =>
    cases e with
    | literal value ty => exact literal value fun t he => ht t (congrArg some he)
    | constant name value ty => exact literal value fun t he => ht t (congrArg some he)
    | unary operator operand ty =>
      have hop : operator = .neg ∨ operator = .not := hx
      rcases hop with rfl | rfl
      · exact exchanges_law.ordinary rfl rfl rfl
      · exact exchanges_law.ordinary rfl rfl rfl
    | binary operator left right ty =>
      intro onStrings
      have hop : operator ≠ .neg ∧ operator ≠ .not := hx
      cases operator with
      | neg => exact absurd rfl hop.1
      | not => exact absurd rfl hop.2
      | _ => cases onStrings <;> exact exchanges_law.ordinary rfl rfl rfl
    | call callee' arguments ty =>
      cases callee' with
      | native routine =>
        intro flags fetched hf hr
        rw [← Except.ok.inj hf, ← Except.ok.inj hr, passed_native, List.append_nil]
        exact .of_trades hx
      | subroutine index =>
        intro flags fetched hf hr
        obtain ⟨sub, hs, hm, hi, hlen⟩ := callee hf
        obtain ⟨hcount, hreturns⟩ := hx sub hm hi
        rw [hlen, hcount, Nat.min_self]
        exact exchanges_law.append (.call hs) (fetchResult_exchanges hm hreturns hr)
    | input | colour | var | address | cast => trivial

end Setting

/-! ## Lines that drain -/

/-- The number of arguments on the stack when control comes to the start of a line: those of the
subroutine that starts there, if one does. -/
def Setting.argumentsAt (s : Setting) (placements : Placements) (line : Nat) : Nat :=
  match placements.find? fun pl => decide (pl.start = line) with
  | some pl => s.map.argumentCount pl.index
  | none => 0

def Instruction.across (others : Opcode → StackEffect) (arguments : Nat → Nat) (i : Instruction) :
    StackEffect :=
  match i.op, i.operands with
  | .subr, [target] => ⟨arguments (Address.ofOperand target), 0⟩
  | op, _ => op.stackEffect others

/-- A line of a program of `size` lines that control comes to with nothing on the stack. -/
structure Level (arguments : Nat → Nat) (size k : Nat) : Prop where
  lt_size : k < size
  nothing : arguments k = 0

/-- The rest of line `k`, with `h` values on the stack, finds the operands that its instructions
need.  Where control leaves the line, nothing is left of them. -/
inductive Drains (others : Opcode → StackEffect) (arguments : Nat → Nat) (size k : Nat) :
    Nat → List Instruction → Prop
  | fall : Level arguments size (k + 1) → Drains others arguments size k 0 []
  | along {i : Instruction} {is : List Instruction} {h h' : Nat} : i.op.transfers = false →
      (i.op.stackEffect others).apply h = some h' → Drains others arguments size k h' is →
      Drains others arguments size k h (i :: is)
  | jump {target : Int64} {is : List Instruction} :
      Level arguments size (Address.ofOperand target) →
      Drains others arguments size k 0 (⟨.jump, [target]⟩ :: is)
  | branch {target : Int64} {is : List Instruction} :
      Level arguments size (Address.ofOperand target) → Drains others arguments size k 0 is →
      Drains others arguments size k 1 (⟨.ifno, [target]⟩ :: is)
  | call {target : Int64} {is : List Instruction} {h : Nat} : Address.ofOperand target < size →
      Drains others arguments size k h is →
      Drains others arguments size k (h + arguments (Address.ofOperand target))
        (⟨.subr, [target]⟩ :: is)
  | back {is : List Instruction} : Drains others arguments size k 0 (⟨.retn, []⟩ :: is)
  | halt {is : List Instruction} : Drains others arguments size k 0 (⟨.halt, []⟩ :: is)

namespace Drains

variable {others : Opcode → StackEffect} {arguments : Nat → Nat} {size k h : Nat}

theorem takes_le {i : Instruction} {is : List Instruction}
    (hd : Drains others arguments size k h (i :: is)) : (i.op.stackEffect others).takes ≤ h := by
  cases hd with
  | along _ he _ => exact StackEffect.takes_le he
  | jump _ => exact Nat.le_refl 0
  | branch _ _ => exact Nat.le_refl 1
  | call _ _ => exact Nat.zero_le _
  | back => exact Nat.le_refl 0
  | halt => exact Nat.le_refl 0

theorem clear {before after : List Instruction}
    (hd : Drains others arguments size k h (before ++ after)) :
    Drains others arguments size k h (before ++ ⟨.hclr, []⟩ :: after) := by
  induction before generalizing h with
  | nil => exact .along rfl (StackEffect.apply_zero h) hd
  | cons i before ih =>
    rw [List.cons_append] at hd ⊢
    generalize hr : before ++ after = rest at hd
    cases hd with
    | along hi he hd => exact .along hi he (ih (hr ▸ hd))
    | jump ht => exact .jump ht
    | branch ht hd => exact .branch ht (ih (hr ▸ hd))
    | call ht hd => exact .call ht (ih (hr ▸ hd))
    | back => exact .back
    | halt => exact .halt

end Drains

namespace Setting

variable {s : Setting} {S : Site → Prop} {a : Assembly} {placed : List Placement}
  {others : Opcode → StackEffect} {own : Nat → Prop} {frame : Option Int64} {size k n m : Nat}
  {code line : Line}

theorem Layout.argumentsAt_start (layout : s.Layout S a placed)
    (hd : (s.map.subroutines.map (·.index)).Nodup) {pl : Placement} (hpl : pl ∈ placed) :
    s.argumentsAt a.placements pl.start = s.map.argumentCount pl.index := by
  have only : ∀ q ∈ a.placements, q.start = pl.start → q = pl := fun q hq he =>
    layout.eq_of_start ((layout.mem_placements hd).mp hq) hpl he
  rw [argumentsAt, Placements.find?_start ((layout.mem_placements hd).mpr hpl) only]

theorem Layout.argumentsAt_eq_zero (layout : s.Layout S a placed)
    (hd : (s.map.subroutines.map (·.index)).Nodup) (h : ∀ pl ∈ placed, pl.start ≠ k) :
    s.argumentsAt a.placements k = 0 := by
  have hnone : a.placements.find? (fun pl => decide (pl.start = k)) = none := by
    refine List.find?_eq_none.mpr fun pl hpl => ?_
    simpa using h pl ((layout.mem_placements hd).mp hpl)
  rw [argumentsAt, hnone]

theorem Layout.level_free (layout : s.Layout S a placed)
    (hd : (s.map.subroutines.map (·.index)).Nodup) (h : Free placed a.lines.length k) :
    Level (s.argumentsAt a.placements) a.lines.length k := by
  refine ⟨h.1, layout.argumentsAt_eq_zero hd fun pl hpl he => h.2 pl hpl ?_⟩
  have := layout.inside pl hpl
  exact ⟨by omega, by omega⟩

theorem Layout.level_own (layout : s.Layout S a placed)
    (hd : (s.map.subroutines.map (·.index)).Nodup) {pl : Placement} (hpl : pl ∈ placed)
    (h : pl.Own k) : Level (s.argumentsAt a.placements) a.lines.length k := by
  have hin := layout.inside pl hpl
  refine ⟨by have := h.2; omega, layout.argumentsAt_eq_zero hd fun q hq he => ?_⟩
  have hq' := layout.inside q hq
  obtain rfl := layout.unique hpl hq h.has ⟨by omega, by omega⟩
  have := h.1
  omega

/-- Code that exchanges `n` values for `m`, in front of a line that drains from `m`. -/
theorem Exchanges.drains (layout : s.Layout S a placed)
    (hd : (s.map.subroutines.map (·.index)).Nodup) (hcode : s.Exchanges others n m code)
    (h : line.LinksTo a.placements
      (Drains others (s.argumentsAt a.placements) a.lines.length k m)) :
    (code ++ line).LinksTo a.placements
      (Drains others (s.argumentsAt a.placements) a.lines.length k n) := by
  obtain ⟨front, rfl, hfront, heffect⟩ := hcode
  induction front generalizing n with
  | nil =>
    obtain rfl := Option.some.inj heffect
    exact h
  | cons q front ih =>
    obtain ⟨hq, hpermits⟩ := hfront q List.mem_cons_self
    obtain ⟨next, he, heffect⟩ := Option.bind_eq_some_iff.mp heffect
    have hrest := ih (fun r hr => hfront r (List.mem_cons_of_mem _ hr)) heffect
    rw [Phrase.text_cons, List.append_assoc]
    cases q with
    | plain i =>
      exact hrest.cons hq trivial fun _ hc => .along (Opcode.transfers_of_neutral hpermits) he hc
    | call index =>
      obtain ⟨sub, hs⟩ := hpermits
      obtain ⟨pl, hpl, hindex, hstart⟩ := layout.start? hs
      have hin := layout.inside pl hpl
      have htarget : Address.ofOperand (Address.operand pl.start) = pl.start :=
        Address.ofOperand_operand (by omega)
      refine hrest.cons hq ⟨pl.start, hstart⟩ fun _ hc => ?_
      obtain ⟨j, rfl, rfl⟩ := StackEffect.apply_eq_some.mp he
      have hcount : (s.phraseEffect others (.call index)).takes =
          s.argumentsAt a.placements (Address.ofOperand (Address.operand pl.start)) := by
        rw [htarget, layout.argumentsAt_start hd hpl, hindex, phraseEffect]
      rw [Phrase.resolve, hstart, Option.getD_some, hcount]
      exact .call (by rw [htarget]; omega) hc

theorem Ending.drains (h : Ending own frame k n line)
    (hown : ∀ j, own j → Level (s.argumentsAt a.placements) size j) :
    line.LinksTo a.placements (Drains others (s.argumentsAt a.placements) size k n) := by
  cases h with
  | fall hnext => exact .of_instructions [] (by simp) (.fall (hown _ hnext))
  | @jump target ht hlt =>
    refine .of_instructions [⟨.jump, [Address.operand target]⟩]
      (Instruction.complete_singleton (by decide) rfl) (.jump ?_)
    rw [Address.ofOperand_operand hlt]
    exact hown target ht
  | @branch target ht hlt hnext =>
    refine .of_instructions [⟨.ifno, [Address.operand target]⟩]
      (Instruction.complete_singleton (by decide) rfl) (.branch ?_ (.fall (hown _ hnext)))
    rw [Address.ofOperand_operand hlt]
    exact hown target ht
  | halt =>
    exact .of_instructions [⟨.halt, []⟩] (Instruction.complete_singleton (by decide) rfl) .halt
  | @release cell hf =>
    refine .of_instructions [⟨.memr, [cell]⟩, ⟨.retn, []⟩] ?_
      (.along rfl (StackEffect.apply_zero 0) .back)
    exact List.forall_mem_cons.mpr
      ⟨Instruction.complete_of_length (by decide) rfl,
        Instruction.complete_singleton (by decide) rfl⟩

theorem Regular.drains (layout : s.Layout S a placed)
    (hd : (s.map.subroutines.map (·.index)).Nodup)
    (hS : ∀ x, S x → x.Meets s (s.Exchanges others))
    (hown : ∀ j, own j → Level (s.argumentsAt a.placements) a.lines.length j)
    (h : s.Regular S own frame k line) :
    line.LinksTo a.placements
      (Drains others (s.argumentsAt a.placements) a.lines.length k 0) := by
  obtain ⟨n, lead, ending, rfl, hlead, hending⟩ := h
  exact (exchanges_law.lead hS hlead).drains layout hd (hending.drains hown)

/-- **Every line of an assembly drains** from the arguments that are on the stack at its start. -/
theorem Layout.drains (layout : s.Layout S a placed)
    (hd : (s.map.subroutines.map (·.index)).Nodup)
    (hS : ∀ x, S x → x.Meets s (s.Exchanges others)) (hk : a.lines[k]? = some line) :
    line.LinksTo a.placements (Drains others (s.argumentsAt a.placements) a.lines.length k
      (s.argumentsAt a.placements k)) := by
  cases layout.shape hk with
  | free hfree h =>
    rw [(layout.level_free hd hfree).nothing]
    exact h.drains layout hd hS fun j hj => layout.level_free hd hj
  | body hpl hown h =>
    rw [(layout.level_own hd hpl hown).nothing]
    exact h.drains layout hd hS fun j hj => layout.level_own hd hpl hj
  | @entry sub pl hsub hpl hindex hstart hentry =>
    subst hstart
    have hin := layout.inside pl hpl
    rw [layout.argumentsAt_start hd hpl, hindex,
      MemoryMap.argumentCount_eq (MemoryMap.subroutine_index hd hsub)]
    obtain ⟨cell, length, rest, _, rfl, hrest⟩ := exchanges_law.prologue hentry
    have hfall : Ending pl.Own (some pl.frame) pl.start 0 [] := .fall ⟨Nat.lt_succ_self _, hin.1⟩
    have hdrains := hrest.drains layout hd
      (hfall.drains fun j hj => layout.level_own hd hpl hj)
    rw [List.append_nil] at hdrains
    exact hdrains.cons (q := .plain ⟨.memc, [cell, length]⟩)
      (Instruction.complete_of_length (by decide) rfl) trivial fun more hc =>
        .along rfl (StackEffect.apply_zero _) hc

end Setting

end TurtleCode
