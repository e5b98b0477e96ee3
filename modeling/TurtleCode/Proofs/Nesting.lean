import Mathlib.Data.List.Sort
import TurtleCode.Generate
import TurtleCode.Proofs.Correspondence
import TurtleCode.Proofs.Layout

/-!
# The nesting of subroutines

Subroutines may be nested in one another and stand in any order.  The code of a program knows them
by their indexes only, so neither the nesting nor the order matters, and nor do names.

* `Subroutine.alone`: what counts of a subroutine.
* `Program.Rearranges`: programs whose subroutines, taken out of the tree, are the same up to order.
  `Program.Rearranges.allSubroutines_eq`: by ascending index there is only one order.
* `Setting.Same`: settings that code cannot tell apart.  `Setting.Same.assemble`: they lead to the
  same assembly.
* `Setting.Emits`: an assembly has the lines of these subroutines in turn.
* `generate_rearranged`: rearranged programs are generated to the same lines or fail with the same
  fault, and every subroutine is emitted once, by ascending index.
-/

namespace TurtleCode

open Result (Both)

/-! ## Subroutines by themselves -/

namespace Subroutine

/-- A subroutine by itself, without its name and without the subroutines inside it. -/
def alone (s : Subroutine) : Subroutine := { s with name := "", subroutines := [] }

theorem alone_eq_iff {a b : Subroutine} : a.alone = b.alone ↔
    a.index = b.index ∧ a.returns = b.returns ∧ a.resultVariable = b.resultVariable ∧
      a.declarations = b.declarations ∧ a.statements = b.statements := by
  simp only [alone, mk.injEq, true_and]

theorem index_eq {a b : Subroutine} (h : a.alone = b.alone) : a.index = b.index :=
  (alone_eq_iff.mp h).1

theorem declarations_eq {a b : Subroutine} (h : a.alone = b.alone) :
    a.declarations = b.declarations := (alone_eq_iff.mp h).2.2.2.1

end Subroutine

/-- Two programs with the same parts: the same language, globals and main statements, and
subroutines that are the same up to their names, their nesting and their order. -/
structure Program.Rearranges (p q : Program) : Prop where
  language : p.language = q.language
  declarations : p.declarations = q.declarations
  statements : p.statements = q.statements
  subroutines : ((Subroutine.flattenAll p.subroutines).map Subroutine.alone).Perm
    ((Subroutine.flattenAll q.subroutines).map Subroutine.alone)

namespace Program

variable {p q : Program}

theorem allSubroutines_perm (p : Program) :
    p.allSubroutines.Perm (Subroutine.flattenAll p.subroutines) := List.mergeSort_perm _ _

theorem allSubroutines_pairwise_le (p : Program) :
    p.allSubroutines.Pairwise fun a b => a.index ≤ b.index := by
  refine (List.pairwise_mergeSort ?_ ?_ _).imp of_decide_eq_true
  · intro a b c hab hbc
    exact decide_eq_true (UInt64.le_trans (of_decide_eq_true hab) (of_decide_eq_true hbc))
  · intro a b
    simpa using UInt64.le_total a.index b.index

theorem allSubroutines_ascending
    (hd : ((Subroutine.flattenAll p.subroutines).map (·.index)).Nodup) :
    p.allSubroutines.Pairwise fun a b => a.index < b.index := by
  have hne : p.allSubroutines.Pairwise fun a b => a.index ≠ b.index :=
    List.pairwise_map.mp ((p.allSubroutines_perm.map _).nodup_iff.mpr hd)
  exact (p.allSubroutines_pairwise_le.and hne).imp fun h => UInt64.lt_of_le_of_ne h.1 h.2

/-- By ascending index there is one order only. -/
theorem Rearranges.allSubroutines_eq (h : p.Rearranges q)
    (hd : ((Subroutine.flattenAll p.subroutines).map (·.index)).Nodup) :
    p.allSubroutines.map Subroutine.alone = q.allSubroutines.map Subroutine.alone := by
  have hp := p.allSubroutines_perm.map Subroutine.alone
  have hq := q.allSubroutines_perm.map Subroutine.alone
  have hperm := (hp.trans h.subroutines).trans hq.symm
  have hdistinct : ((p.allSubroutines.map Subroutine.alone).map (·.index)).Nodup := by
    rw [List.map_map]
    exact (p.allSubroutines_perm.map _).nodup_iff.mpr hd
  have hsorted (r : Program) :
      (r.allSubroutines.map Subroutine.alone).Pairwise fun a b => a.index ≤ b.index :=
    List.pairwise_map.mpr r.allSubroutines_pairwise_le
  refine List.Perm.eq_of_pairwise ?_ (hsorted p) (hsorted q) hperm
  intro a b ha hb hab hba
  exact List.inj_on_of_nodup_map hdistinct ha (hperm.mem_iff.mpr hb) (UInt64.le_antisymm hab hba)

end Program

/-! ## Settings that code cannot tell apart -/

/-- Routines that code cannot tell apart. -/
inductive Routine.Same : Routine → Routine → Prop
  | program {p q : Program} : p.declarations = q.declarations → Same (.program p) (.program q)
  | subroutine {a b : Subroutine} : a.alone = b.alone → Same (.subroutine a) (.subroutine b)

namespace Routine.Same

variable {r r' : Routine}

theorem declarations (h : r.Same r') : r.declarations = r'.declarations := by
  cases h with
  | program h => exact h
  | subroutine h => exact Subroutine.declarations_eq h

theorem isProgram (h : r.Same r') : r.isProgram = r'.isProgram := by
  cases h with
  | program _ => rfl
  | subroutine _ => rfl

end Routine.Same

/-- Settings that code cannot tell apart: what counts of their programs is the same. -/
structure Setting.Same (s t : Setting) : Prop where
  options : s.options = t.options
  language : s.language = t.language
  globals : s.map.program.declarations = t.map.program.declarations
  subroutines : s.map.subroutines.map Subroutine.alone = t.map.subroutines.map Subroutine.alone

namespace Setting

variable {s t : Setting}

namespace Same

/-! ### Memory -/

theorem subroutine (h : s.Same t) (index : UInt64) :
    Both (fun a b => a.alone = b.alone) (s.map.subroutine index) (t.map.subroutine index) := by
  -- looking an index up does not see more of a subroutine than its index
  have hfind (subs : List Subroutine) :
      (subs.find? fun a => decide (a.index = index)).map Subroutine.alone =
        (subs.map Subroutine.alone).find? fun a => decide (a.index = index) := by
    rw [List.find?_map]
    rfl
  have hsame := (hfind s.map.subroutines).trans ((congrArg _ h.subroutines).trans
    (hfind t.map.subroutines).symm)
  unfold MemoryMap.subroutine
  cases hs : s.map.subroutines.find? fun a => decide (a.index = index) with
  | none =>
    rw [hs, Option.map_none, eq_comm, Option.map_eq_none_iff] at hsame
    rw [hsame]
    exact .error _
  | some a =>
    rw [hs, Option.map_some, eq_comm, Option.map_eq_some_iff] at hsame
    obtain ⟨b, hb, hab⟩ := hsame
    rw [hb]
    exact .ok hab.symm

theorem routine (h : s.Same t) (index : UInt64) :
    Both Routine.Same (s.map.routine index) (t.map.routine index) := by
  unfold MemoryMap.routine
  split
  · exact .ok (.program h.globals)
  · refine .bind (h.subroutine index) ?_
    intro a b hab
    exact .ok (.subroutine hab)

theorem declared (h : s.Same t) : s.map.declared = t.map.declared := by
  funext id
  refine (h.routine id.routine).bind_eq ?_
  intro r r' hr
  simp only [hr.declarations]

theorem subroutineCount (h : s.Same t) : s.map.subroutineCount = t.map.subroutineCount := by
  have hlength := congrArg List.length h.subroutines
  rw [List.length_map, List.length_map] at hlength
  rw [MemoryMap.subroutineCount, MemoryMap.subroutineCount, hlength]

theorem resultCell (h : s.Same t) : s.map.resultCell = t.map.resultCell := by
  have hany (subs : List Subroutine) : subs.any (·.returns.isSome) =
      (subs.map Subroutine.alone).any (·.returns.isSome) := by
    rw [List.any_map]
    rfl
  have hsome : s.map.returnsSome = t.map.returnsSome := by
    rw [MemoryMap.returnsSome, MemoryMap.returnsSome, hany, h.subroutines, ← hany]
  rw [MemoryMap.resultCell, MemoryMap.resultCell, hsome, h.subroutineCount]

theorem turtleBase (h : s.Same t) : s.map.turtleBase = t.map.turtleBase := by
  rw [MemoryMap.turtleBase, MemoryMap.turtleBase, h.resultCell, h.subroutineCount]

theorem globalsBase (h : s.Same t) : s.map.globalsBase = t.map.globalsBase := by
  rw [MemoryMap.globalsBase, MemoryMap.globalsBase, h.turtleBase]

theorem location (h : s.Same t) : s.map.location = t.map.location := by
  funext id
  unfold MemoryMap.location
  rw [h.declared, h.turtleBase, h.globalsBase]
  congr
  funext v
  split
  · rfl
  · refine (h.routine id.routine).bind_eq ?_
    intro r r' hr
    rw [hr.declarations, hr.isProgram]

/-! ### Variables and expressions -/

theorem turtle (h : s.Same t) : s.turtle = t.turtle := by
  funext direct indirect base offset
  rw [Setting.turtle, Setting.turtle, h.options]

theorem load (h : s.Same t) : s.load = t.load := by
  funext id
  rw [Setting.load, Setting.load, h.declared, h.location, h.turtle]

theorem store (h : s.Same t) : s.store = t.store := by
  funext id
  rw [Setting.store, Setting.store, h.declared, h.location, h.turtle]

theorem addressOf (h : s.Same t) : s.addressOf = t.addressOf := by
  funext id
  rw [Setting.addressOf, Setting.addressOf, h.declared, h.location, h.turtle]

theorem select (h : s.Same t) : s.select = t.select := by
  funext v depth
  rw [Setting.select, Setting.select, h.options, h.language]

theorem passing (h : s.Same t) : s.passing = t.passing := by
  funext callee count
  cases callee with
  | native routine => rfl
  | subroutine index =>
    refine (h.subroutine index).bind_eq ?_
    intro a b hab
    rw [Subroutine.parameters, Subroutine.parameters, Subroutine.declarations_eq hab]

theorem fetchResult (h : s.Same t) : s.fetchResult = t.fetchResult := by
  funext callee
  cases callee with
  | native routine => rfl
  | subroutine index => rw [Setting.fetchResult, Setting.fetchResult, h.resultCell]

mutual

theorem expression (h : s.Same t) : ∀ (e : Expression) (byReference : Bool),
    s.expression byReference e = t.expression byReference e
  | .var id indexes ty, byReference => by
    rw [Setting.expression, Setting.expression, h.addressOf, h.load, h.declared]
    simp only [steps h indexes]
  | .literal _ _, _ | .input _ _ _, _ | .constant _ _ _, _ | .colour _ _ _, _ => by
    rw [Setting.expression, Setting.expression]
  | .address id ty, byReference => by
    rw [Setting.expression, Setting.expression, h.addressOf]
  | .call callee arguments ty, byReference => by
    rw [Setting.expression, Setting.expression, h.passing, h.fetchResult]
    simp only [Same.arguments h arguments]
  | .unary operator operand ty, byReference => by
    rw [Setting.expression, Setting.expression, expression h operand]
  | .binary operator left right ty, byReference => by
    rw [Setting.expression, Setting.expression, expression h left, expression h right]
  | .cast operand ty, byReference => by
    rw [Setting.expression, Setting.expression, expression h operand]

theorem steps (h : s.Same t) : ∀ (indexes : List Expression) (v : Variable) (depth : Nat),
    s.steps v depth indexes = t.steps v depth indexes
  | [], v, depth => by rw [Setting.steps, Setting.steps]
  | index :: rest, v, depth => by
    rw [Setting.steps, Setting.steps, expression h index, h.select, steps h rest]

theorem arguments (h : s.Same t) : ∀ (arguments : List Expression) (flags : List Bool),
    s.arguments flags arguments = t.arguments flags arguments
  | [], flags => by rw [Setting.arguments, Setting.arguments]
  | argument :: rest, [] => by rw [Setting.arguments, Setting.arguments]
  | argument :: rest, flag :: flags => by
    rw [Setting.arguments, Setting.arguments, expression h argument, arguments h rest]

end

theorem element (h : s.Same t) : s.element = t.element := by
  funext id indexes
  rw [Setting.element, Setting.element, h.declared, h.load]
  simp only [h.steps]

theorem call (h : s.Same t) : s.call = t.call := by
  funext c
  rw [Setting.call, Setting.call, h.passing]
  simp only [h.arguments]

/-! ### Statements -/

theorem assignment (h : s.Same t) : s.assignment = t.assignment := by
  funext a
  rw [Setting.assignment, Setting.assignment, h.declared, h.expression, h.load, h.store, h.element]

theorem copyResult (h : s.Same t) {a b : Subroutine} (hab : a.alone = b.alone) :
    s.copyResult a = t.copyResult b := by
  obtain ⟨hindex, hreturns, hresult, _, _⟩ := Subroutine.alone_eq_iff.mp hab
  rw [Setting.copyResult, Setting.copyResult, hindex, hreturns, hresult, h.resultCell, h.load]

theorem releaseFrame_eq {a b : Subroutine} (hab : a.alone = b.alone) :
    releaseFrame a = releaseFrame b := by
  rw [releaseFrame, releaseFrame, Subroutine.index_eq hab]

theorem epilogue (h : s.Same t) {a b : Subroutine} (hab : a.alone = b.alone) :
    s.epilogue a = t.epilogue b := by
  rw [Setting.epilogue, Setting.epilogue, h.copyResult hab, releaseFrame_eq hab]

theorem returnLine (h : s.Same t) {r r' : Routine} (hr : r.Same r') (value : Option Expression) :
    s.returnLine value r = t.returnLine value r' := by
  cases hr with
  | program _ => rfl
  | subroutine hab =>
    rw [Setting.returnLine, Setting.returnLine, h.resultCell, h.copyResult hab, releaseFrame_eq hab]
    simp only [h.expression]

mutual

theorem statement (h : s.Same t) {r r' : Routine} (hr : r.Same r') :
    ∀ (st : Statement) (start : Nat), s.statement r start st = t.statement r' start st
  | .assign a, start => by rw [Setting.statement, Setting.statement, h.assignment]
  | .call c, start => by rw [Setting.statement, Setting.statement, h.call]
  | .ifElse condition thenBody elseBody, start => by
    rw [Setting.statement, Setting.statement, h.expression]
    simp only [statements h hr thenBody, statements h hr elseBody]
  | .whileDo condition body, start => by
    rw [Setting.statement, Setting.statement, h.expression]
    simp only [statements h hr body]
  | .repeatUntil condition body, start => by
    rw [Setting.statement, Setting.statement, h.expression, statements h hr body]
  | .forLoop initial condition change body, start => by
    rw [Setting.statement, Setting.statement, h.assignment, h.expression]
    simp only [statements h hr body]
  | .ret value, start => by rw [Setting.statement, Setting.statement, h.returnLine hr]
  | .pass, start => by rw [Setting.statement, Setting.statement]

theorem statements (h : s.Same t) {r r' : Routine} (hr : r.Same r') :
    ∀ (ss : List Statement) (start : Nat), s.statements r start ss = t.statements r' start ss
  | [], start => by rw [Setting.statements, Setting.statements]
  | head :: rest, start => by
    rw [Setting.statements, Setting.statements]
    simp only [statement h hr head, statements h hr rest]

end

/-! ### Whole programs -/

theorem localCell (h : s.Same t) : s.localCell = t.localCell := by
  funext id
  rw [Setting.localCell, Setting.localCell, h.location]

theorem receiveAll (h : s.Same t) (routine : UInt64) (slots : List (Variable × Nat)) :
    s.receiveAll routine slots = t.receiveAll routine slots := by
  induction slots with
  | nil => rfl
  | cons slot rest ih =>
    rw [Setting.receiveAll, Setting.receiveAll, ih, Setting.receive, Setting.receive, h.load,
      h.localCell]

theorem prologue (h : s.Same t) {a b : Subroutine} (hab : a.alone = b.alone) :
    s.prologue a = t.prologue b := by
  have hslots : a.parameterSlots = b.parameterSlots := by
    rw [Subroutine.parameterSlots, Subroutine.parameterSlots, Subroutine.declarations_eq hab]
  have hclaim : s.claimFrame = t.claimFrame := by
    funext pointer length
    rw [Setting.claimFrame, Setting.claimFrame, h.options]
  rw [Setting.prologue, Setting.prologue, MemoryMap.frameLength, MemoryMap.frameLength, hslots,
    hclaim, h.options, h.receiveAll, Subroutine.index_eq hab, Subroutine.declarations_eq hab]

theorem subroutineLines (h : s.Same t) {a b : Subroutine} (hab : a.alone = b.alone) (start : Nat) :
    s.subroutineLines a start = t.subroutineLines b start := by
  have hbody : a.statements = b.statements := (Subroutine.alone_eq_iff.mp hab).2.2.2.2
  rw [Setting.subroutineLines, Setting.subroutineLines, h.prologue hab, h.epilogue hab, hbody]
  simp only [h.statements (.subroutine hab)]

theorem place (h : s.Same t) : ∀ {subs subs' : List Subroutine} (cursor : Nat),
    subs.map Subroutine.alone = subs'.map Subroutine.alone →
    s.place cursor subs = t.place cursor subs'
  | [], [], cursor, _ => rfl
  | a :: rest, b :: rest', cursor, hsubs => by
    obtain ⟨hab, hrest⟩ := List.cons.inj hsubs
    rw [Setting.place, Setting.place, h.subroutineLines hab, Subroutine.index_eq hab]
    congr
    funext code
    congr
    funext stop
    rw [place h stop hrest]

theorem subroutineBlock (h : s.Same t) : s.subroutineBlock = t.subroutineBlock := by
  funext start
  have hempty : s.map.subroutines.isEmpty = t.map.subroutines.isEmpty := by
    rw [← List.isEmpty_map, h.subroutines, List.isEmpty_map]
  rw [Setting.subroutineBlock, Setting.subroutineBlock, hempty]
  simp only [h.place _ h.subroutines]

theorem setTurtle (h : s.Same t) (base : Int64) (properties : List (TurtleProperty × Int64)) :
    s.setTurtle base properties = t.setTurtle base properties := by
  induction properties with
  | nil => rfl
  | cons property rest ih => rw [Setting.setTurtle, Setting.setTurtle, h.turtle, ih]

theorem startup (h : s.Same t) : s.startup = t.startup := by
  rw [Setting.startup, Setting.startup, Setting.turtleStart, Setting.turtleStart, h.options,
    h.turtleBase, h.globalsBase, h.globals]
  simp only [h.setTurtle]

/-- **Settings that code cannot tell apart lead to the same assembly.** -/
theorem assemble (h : s.Same t)
    (hmain : s.map.program.statements = t.map.program.statements) : s.assemble = t.assemble := by
  rw [Setting.assemble, Setting.assemble, h.startup, h.subroutineBlock, hmain]
  simp only [h.statements (.program h.globals)]

end Same

/-! ## Subroutines in turn -/

/-- The lines of subroutines one after another from `start` on, and where each one is. -/
inductive InTurn (s : Setting) : Nat → List Subroutine → List Line → List Placement → Prop
  | nil (start : Nat) : InTurn s start [] [] []
  | cons {start : Nat} {sub : Subroutine} {rest : List Subroutine} {code lines : List Line}
      {placed : List Placement} : s.subroutineLines sub start = .ok code →
      InTurn s (start + code.length) rest lines placed →
      InTurn s start (sub :: rest) (code ++ lines)
        (⟨sub.index, start, start + code.length⟩ :: placed)

/-- An assembly is made of the lines that run first, a jump and the lines of these subroutines in
turn, if there are any, the main program, and a halt. -/
def Emits (s : Setting) (a : Assembly) (subs : List Subroutine) : Prop :=
  ∃ first inner main, s.startup = .ok first ∧ s.InTurn (first.length + 1) subs inner a.placements ∧
    s.statements (.program s.map.program)
      (first ++ if subs = [] then [] else jumpTo (first.length + 1 + inner.length) :: inner).length
      s.map.program.statements = .ok main ∧
    a.lines = (first ++ if subs = [] then [] else jumpTo (first.length + 1 + inner.length) :: inner)
      ++ main ++ [instr .halt []]

theorem InTurn.indexes {start : Nat} {subs : List Subroutine} {lines : List Line}
    {placed : List Placement} (h : s.InTurn start subs lines placed) :
    placed.map (·.index) = subs.map (·.index) := by
  induction h with
  | nil _ => rfl
  | cons _ _ ih => rw [List.map_cons, List.map_cons, ih]

theorem inTurn_of_place : ∀ {subs : List Subroutine} {cursor : Nat} {lines : List Line}
    {placed : List Placement}, s.place cursor subs = .ok (lines, placed) →
    s.InTurn cursor subs lines placed
  | [], cursor, lines, placed, h => by
    cases h
    exact .nil cursor
  | sub :: rest, cursor, lines, placed, h => by
    rw [Setting.place] at h
    simp only [Result.bind_eq_ok, Address.add_eq_ok, Result.pure_eq_ok] at h
    obtain ⟨code, hcode, _, ⟨_, rfl⟩, ⟨more, others⟩, hmore, he⟩ := h
    cases he
    exact .cons hcode (inTurn_of_place hmore)

end Setting

theorem Placements.ofList_eq {entries : List Placement}
    (h : entries.Pairwise fun p q => p.index < q.index) : Placements.ofList entries = entries := by
  induction entries with
  | nil => rfl
  | cons p rest ih =>
    obtain ⟨hp, hrest⟩ := List.pairwise_cons.mp h
    show Placements.insert p (Placements.ofList rest) = _
    rw [ih hrest]
    cases rest with
    | nil => rfl
    | cons q rest => rw [Placements.insert, if_pos (hp q List.mem_cons_self)]

/-- An assembly emits its subroutines in turn if they come by ascending index. -/
theorem Setting.emits_of_assemble {s : Setting} {a : Assembly} (h : s.assemble = .ok a)
    (hd : s.map.subroutines.Pairwise fun x y => x.index < y.index) :
    s.Emits a s.map.subroutines := by
  obtain ⟨first, block, placed, main, hfirst, hblock, hmain, rfl⟩ := assemble_ok h
  rcases subroutineBlock_ok hblock with ⟨hnone, rfl, rfl⟩ | ⟨inner, hsome, hplace, rfl⟩
  · refine ⟨first, [], main, hfirst, ?_, ?_, ?_⟩
    · rw [hnone]
      exact .nil _
    · rwa [if_pos hnone]
    · rw [if_pos hnone]
  · have hturn := inTurn_of_place hplace
    have hascending : placed.Pairwise fun p q => p.index < q.index := by
      have hindexes := List.pairwise_map.mpr hd
      rw [← hturn.indexes] at hindexes
      exact List.pairwise_map.mp hindexes
    refine ⟨first, inner, main, hfirst, ?_, ?_, ?_⟩
    · show s.InTurn _ _ _ (Placements.ofList placed)
      rwa [Placements.ofList_eq hascending]
    · rwa [if_neg hsome]
    · rw [if_neg hsome]

/-- **Neither the nesting nor the order of subroutines matters.**  Let two programs have the same
parts, and let no two subroutines share an index.  Under the same options they are generated to the
same lines, or fail with the same fault.  The assembly, and so what is linked to a generated
program, has the lines of every subroutine of the tree once, by ascending index. -/
theorem generate_rearranged {p q : Program} (h : p.Rearranges q)
    (hd : ((Subroutine.flattenAll p.subroutines).map (·.index)).Nodup) (options : Options) :
    generate p options = generate q options ∧
      ∃ subs : List Subroutine, subs.Perm (Subroutine.flattenAll p.subroutines) ∧
        subs.Pairwise (fun x y => x.index < y.index) ∧
        (∀ a, (Setting.of p options).assemble = .ok a → (Setting.of p options).Emits a subs) ∧
        ∀ out, generate p options = .ok out → ∃ a, (Setting.of p options).assemble = .ok a ∧
          link a = .ok out ∧ (Setting.of p options).Emits a subs := by
  have hsame : (Setting.of p options).Same (Setting.of q options) :=
    ⟨rfl, h.language, h.declarations, h.allSubroutines_eq hd⟩
  have hascending := Program.allSubroutines_ascending hd
  have hemits : ∀ a, (Setting.of p options).assemble = .ok a →
      (Setting.of p options).Emits a p.allSubroutines :=
    fun a ha => Setting.emits_of_assemble ha hascending
  refine ⟨?_, p.allSubroutines, p.allSubroutines_perm, hascending, hemits, fun out hout => ?_⟩
  · rw [generate, generate, hsame.assemble h.statements]
  · obtain ⟨a, ha, hlink⟩ := Result.bind_eq_ok.mp hout
    exact ⟨a, ha, hlink, hemits a ha⟩

/-! ### A chain of subroutines, nested and side by side -/

def mark : Subroutine where
  index := 3
  name := "mark"
  statements := [.call ⟨.native ⟨"blot", [false], none, instr .blot []⟩, [.integer 5]⟩]

def tally : Subroutine where
  index := 1
  name := "tally"
  returns := some .integer
  declarations := [{ name := "count", ty := .integer }]
  statements := [
    .call ⟨.subroutine 3, []⟩,
    .ret (some (.binary .plus (.var ⟨1, 0⟩ [] .integer) (.integer 1) .integer))]

def record : Subroutine where
  index := 2
  name := "record"
  statements := [.assign ⟨⟨0, 0⟩, [], .call (.subroutine 1) [] .integer⟩]

/-- A program in which the three are nested in one another. -/
def nestedChain : Program where
  name := "nested"
  language := .pascal
  declarations := [{ name := "total", ty := .integer }]
  subroutines := [{ record with subroutines := [{ tally with subroutines := [mark] }] }]
  statements := [.call ⟨.subroutine 2, []⟩]

theorem nestedChain_map : MemoryMap.of nestedChain =
    ⟨nestedChain, [{ tally with subroutines := [mark] },
      { record with subroutines := [{ tally with subroutines := [mark] }] }, mark]⟩ := by
  have hflat : Subroutine.flattenAll nestedChain.subroutines =
      [{ record with subroutines := [{ tally with subroutines := [mark] }] },
        { tally with subroutines := [mark] }, mark] := rfl
  rw [MemoryMap.of, Program.allSubroutines, hflat]
  simp [List.mergeSort, List.MergeSort.Internal.splitInTwo, record, tally, mark]

/-- The same subroutines side by side, one of them under another name. -/
def flatChain : Program := { nestedChain with
  name := "flat"
  subroutines := [mark, { record with name := "note" }, tally] }

theorem chain_rearranges : nestedChain.Rearranges flatChain where
  language := rfl
  declarations := rfl
  statements := rfl
  subroutines := by
    have hswap : ([record.alone, tally.alone] ++ [mark.alone]).Perm
        ([mark.alone] ++ [record.alone, tally.alone]) := List.perm_append_comm
    exact hswap

theorem generate_rearranged_chain :
    nestedChain.Rearranges flatChain ∧
      ((Subroutine.flattenAll nestedChain.subroutines).map (·.index)).Nodup ∧
      ∃ out, generate nestedChain {} = .ok out ∧ generate flatChain {} = .ok out ∧
        out.lines.length = 14 ∧
        ∃ a subs, (Setting.of nestedChain {}).assemble = .ok a ∧ link a = .ok out ∧
          subs.Perm (Subroutine.flattenAll nestedChain.subroutines) ∧
          subs.Pairwise (fun x y => x.index < y.index) ∧
          (Setting.of nestedChain {}).Emits a subs := by
  have hd : ((Subroutine.flattenAll nestedChain.subroutines).map (·.index)).Nodup := by decide
  obtain ⟨hsame, subs, hperm, hascending, _, hlinked⟩ :=
    generate_rearranged chain_rearranges hd {}
  have hlength : (generate nestedChain {}).toOption.map (·.lines.length) = some 14 := by
    rw [generate, Setting.of, nestedChain_map]
    decide +kernel
  obtain ⟨out, hout, hlines⟩ := Option.map_eq_some_iff.mp hlength
  have hout := Result.of_toOption hout
  obtain ⟨a, ha, hlink, hemits⟩ := hlinked out hout
  exact ⟨chain_rearranges, hd, out, hout, hsame ▸ hout, hlines, a, subs, ha, hlink, hperm,
    hascending, hemits⟩

end TurtleCode
