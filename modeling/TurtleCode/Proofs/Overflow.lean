import TurtleCode.Generate
import TurtleCode.Proofs.ControlFlow
import TurtleCode.Proofs.Separation

/-!
# Arithmetic that never overflows

If all variables and the memory of a program fit, and its lines can be counted, then no sum,
difference or product that is made on the way to its code overflows.

* `Result.Safe`: a computation that does not end in an overflow.  `Result.Safe.bind` puts such
  computations together.
* `Program.Measured`: what the lengths of a program have to be.  `Program.lineTotal`: how many lines
  its code takes.
* `Program.Measured.expression_safe`, `Program.Measured.statements_safe`,
  `Program.Measured.assemble_safe`: making the code of a program, from the bottom up.  `link_safe`:
  linking it.
* `generate_never_overflows`: both together.
-/

namespace TurtleCode

/-! ## Computations that do not overflow -/

/-- The computation does not end in an overflow. -/
def Result.Safe {α : Type} (x : Result α) : Prop := ∀ operation, x ≠ .error (.overflow operation)

namespace Result.Safe

variable {α β : Type} {x : Result α} {f : α → Result β}

theorem ok (a : α) : Safe (.ok a) := fun _ h => nomatch h

theorem of_exists (h : ∃ a, x = .ok a) : Safe x := by
  obtain ⟨a, rfl⟩ := h
  exact .ok a

theorem bind (hx : Safe x) (hf : ∀ a, x = .ok a → Safe (f a)) : Safe (x >>= f) := by
  cases x with
  | error fault =>
    rintro operation h
    exact hx operation (congrArg Except.error (Except.error.inj h))
  | ok a => exact hf a rfl

/-- A computation that fails if its first step fails. -/
theorem of_first {y : Result β} (hy : y = x >>= f) (hx : Safe x) (h : ∀ a, x = .ok a → Safe y) :
    Safe y := by
  cases x with
  | error fault =>
    subst hy
    exact hx.bind fun a ha => nomatch ha
  | ok a => exact h a rfl

end Result.Safe

open Result (Safe)

theorem Address.check_safe {n : Nat} (h : n < UInt64.size) : Safe (Address.check n) :=
  .of_exists ⟨n, Address.check_eq_ok.mpr ⟨h, rfl⟩⟩

theorem Address.add_safe {a b : Nat} (h : a + b < UInt64.size) : Safe (Address.add a b) :=
  Address.check_safe h

theorem Address.add_bind_safe {α : Type} {a b : Nat} {f : Nat → Result α} (h : a + b < UInt64.size)
    (hf : Safe (f (a + b))) : Safe (Address.add a b >>= f) := by
  refine (Address.add_safe h).bind fun c hc => ?_
  obtain ⟨_, rfl⟩ := Address.add_eq_ok.mp hc
  exact hf

namespace MemoryMap

variable (m : MemoryMap)

theorem subroutine_safe (index : UInt64) : Safe (m.subroutine index) := by
  unfold subroutine
  split
  · exact .ok _
  · nofun

theorem declared_safe (id : VariableId) : Safe (m.declared id) := by
  have hroutine : Safe (m.routine id.routine) := by
    unfold routine
    split
    · exact .ok _
    · exact (m.subroutine_safe _).bind fun sub _ => .ok _
  refine hroutine.bind fun routine _ => ?_
  split
  · exact .ok _
  · nofun

end MemoryMap

theorem Ty.conversion_safe (source target : Ty) : Safe (source.conversion target) := by
  unfold Ty.conversion
  repeat' split
  all_goals first | exact .ok _ | nofun

namespace Setting

variable (s : Setting)

theorem select_safe {v : Variable} (hv : v.Fits v.dimensions) (depth : Nat) :
    Safe (s.select v depth) := by
  unfold select
  split
  · obtain ⟨each, heach, _⟩ := Variable.exists_lengthOver (hv.drop (depth + 1))
    exact (Safe.of_exists ⟨each, heach⟩).bind fun _ _ => .ok _
  · split
    · exact .ok _
    · nofun

theorem passing_safe (callee : Callee) (count : Nat) : Safe (s.passing callee count) := by
  cases callee with
  | native routine => exact .ok _
  | subroutine index => exact (s.map.subroutine_safe index).bind fun _ _ => .ok _

end Setting

/-! ## How many lines there are -/

namespace Subroutine

def lineCount (sub : Subroutine) : Nat := Statement.lineCountAll sub.statements + 2

def lineCountAll : List Subroutine → Nat
  | [] => 0
  | sub :: rest => sub.lineCount + lineCountAll rest

end Subroutine

/-! ## Programs that fit -/

namespace Program

def allDeclarations (p : Program) : List Variable :=
  p.declarations ++ (Subroutine.flattenAll p.subroutines).flatMap (·.declarations)

def startLines (p : Program) : Nat := if p.declarations.any Variable.ownsStorage then 2 else 1

def blockLines (p : Program) : Nat :=
  if p.allSubroutines.isEmpty then 0 else 1 + Subroutine.lineCountAll p.allSubroutines

def lineTotal (p : Program) : Nat :=
  p.startLines + p.blockLines + Statement.lineCountAll p.statements + 1

/-- A regular program all of whose variables fit, those included that hold an address only. -/
structure Measured (p : Program) : Prop extends p.Regular where
  fits : ∀ v ∈ p.allDeclarations, v.Fits v.dimensions

end Program

theorem Region.allHeaders_eq_nil {region : Region} {zeroed : Bool} {wanted : Variable → Bool} :
    ∀ {declarations : List Variable} {cell : Int64} {code : Line},
      (∀ v ∈ declarations, wanted v = false) →
      region.allHeaders zeroed wanted cell declarations = .ok code → code = [] := by
  intro declarations
  induction declarations with
  | nil =>
    intro cell code _ h
    cases h
    rfl
  | cons v rest ih =>
    intro cell code hw h
    rw [allHeaders, hw v List.mem_cons_self, if_neg Bool.false_ne_true] at h
    simp only [Result.bind_eq_ok, Result.pure_eq_ok] at h
    obtain ⟨_, hnil, _, _, _, _, more, hmore, rfl⟩ := h
    cases hnil
    exact ih (fun u hu => hw u (List.mem_cons_of_mem _ hu)) hmore

namespace Setting

variable {p : Program} {options : Options}

theorem subroutineLines_length {s : Setting} {sub : Subroutine} {start : Nat} {lines : List Line}
    (h : s.subroutineLines sub start = .ok lines) : lines.length = sub.lineCount := by
  unfold subroutineLines at h
  simp only [Result.bind_eq_ok, Result.pure_eq_ok] at h
  obtain ⟨entry, _, _, _, body, hbody, exit, _, rfl⟩ := h
  rw [Subroutine.lineCount, ← statements_length sub.statements hbody]
  simp

theorem place_length {s : Setting} : ∀ {subs : List Subroutine} {cursor : Nat} {lines : List Line}
    {placed : List Placement}, s.place cursor subs = .ok (lines, placed) →
    lines.length = Subroutine.lineCountAll subs := by
  intro subs
  induction subs with
  | nil =>
    intro cursor lines placed h
    cases h
    rfl
  | cons sub rest ih =>
    intro cursor lines placed h
    rw [place] at h
    simp only [Result.bind_eq_ok, Result.pure_eq_ok] at h
    obtain ⟨code, hcode, _, _, ⟨more, _⟩, hmore, he⟩ := h
    cases he
    rw [List.length_append, subroutineLines_length hcode, ih hmore, Subroutine.lineCountAll]

theorem subroutineBlock_length {start : Nat} {lines : List Line} {placed : List Placement}
    (h : (Setting.of p options).subroutineBlock start = .ok (lines, placed)) :
    lines.length = p.blockLines := by
  unfold Program.blockLines
  have hmap : (Setting.of p options).map.subroutines = p.allSubroutines := rfl
  rcases subroutineBlock_ok h with ⟨hnone, rfl, _⟩ | ⟨inner, hsome, hplace, rfl⟩
  · rw [← hmap, hnone]
    rfl
  · rw [if_neg (by rw [← hmap]; simpa using hsome), List.length_cons, place_length hplace, hmap]
    omega

theorem startup_length {lines : List Line} (h : (Setting.of p options).startup = .ok lines) :
    lines.length ≤ p.startLines := by
  obtain ⟨base, properties, cell, headers, _, hheaders, rfl⟩ := startup_ok h
  unfold Program.startLines
  cases hsome : p.declarations.any Variable.ownsStorage with
  | true =>
    cases headers.isEmpty <;> simp
  | false =>
    have hnone : ∀ v ∈ p.declarations, v.ownsStorage = false := fun v hv =>
      Bool.eq_false_iff.mpr (List.any_eq_false.mp hsome v hv)
    rw [Region.allHeaders_eq_nil hnone hheaders]
    simp

end Setting

namespace Program

namespace Measured

variable {p : Program}

theorem declared_fits (h : p.Measured) {id : VariableId} {v : Variable}
    (hd : (MemoryMap.of p).declared id = .ok v) : v.Fits v.dimensions := by
  obtain ⟨index, slot⟩ := id
  apply h.fits
  unfold allDeclarations
  rcases MemoryMap.declared_cases hd with ⟨_, hv⟩ | ⟨sub, hs, _, hv⟩
  · exact List.mem_append_left _ (List.mem_of_getElem? hv)
  · exact List.mem_append_right _ (List.mem_flatMap.mpr
      ⟨sub, List.mem_mergeSort.mp hs, List.mem_of_getElem? hv⟩)

theorem resultCell_safe (h : p.Measured) : Safe (MemoryMap.of p).resultCell := by
  obtain ⟨cell, _, hcell⟩ := h.exists_resultCell
  exact .of_exists ⟨_, hcell⟩

/-! ## Variables -/

theorem exists_location (h : p.Measured) {id : VariableId} {v : Variable}
    (hd : (MemoryMap.of p).declared id = .ok v) :
    ∃ place, (MemoryMap.of p).location id = .ok place := by
  rcases h.location_cases hd with ⟨_, _, _, _, hplace⟩ |
    ⟨_, ⟨_, _, _, hplace, _⟩ | ⟨_, _, _, _, _, _, _, hplace, _⟩⟩
  all_goals exact ⟨_, hplace⟩

theorem location_safe (h : p.Measured) (id : VariableId) : Safe ((MemoryMap.of p).location id) :=
  .of_first rfl ((MemoryMap.of p).declared_safe id) fun _ hd => .of_exists (h.exists_location hd)

theorem load_safe (h : p.Measured) (options : Options) (id : VariableId) :
    Safe ((Setting.of p options).load id) :=
  .of_first rfl ((MemoryMap.of p).declared_safe id)
    fun _ hd => .of_exists (h.exists_load options hd)

theorem store_safe (h : p.Measured) (options : Options) (id : VariableId) :
    Safe ((Setting.of p options).store id) :=
  .of_first rfl ((MemoryMap.of p).declared_safe id)
    fun _ hd => .of_exists (h.exists_store options hd)

theorem addressOf_safe (h : p.Measured) (options : Options) (id : VariableId) :
    Safe ((Setting.of p options).addressOf id) := by
  refine .of_first rfl ((MemoryMap.of p).declared_safe id) fun v hd => .of_exists ?_
  exact h.exists_addressOf options hd

/-! ## Expressions -/

theorem fetchResult_safe (h : p.Measured) (options : Options) (callee : Callee) :
    Safe ((Setting.of p options).fetchResult callee) := by
  cases callee with
  | native routine => exact .ok _
  | subroutine index =>
    refine h.resultCell_safe.bind fun cell _ => ?_
    cases cell <;> exact .ok _

mutual

theorem expression_safe (h : p.Measured) (options : Options) :
    ∀ (e : Expression) (byReference : Bool),
    Safe ((Setting.of p options).expression byReference e)
  | .var id indexes _, byReference => by
    rw [Setting.expression]
    split
    · split
      · exact h.addressOf_safe options id
      · exact h.load_safe options id
    · refine ((MemoryMap.of p).declared_safe id).bind fun v hd => ?_
      refine (h.load_safe options id).bind fun _ _ => ?_
      exact (h.steps_safe options indexes (h.declared_fits hd) 0).bind fun _ _ => .ok _
  | .literal .., byReference | .input .., byReference | .constant .., byReference
  | .colour .., byReference => by
    rw [Setting.expression]
    split
    · nofun
    · exact .ok _
  | .address id _, byReference => by
    rw [Setting.expression]
    split
    · nofun
    · exact h.addressOf_safe options id
  | .call callee arguments _, byReference => by
    rw [Setting.expression]
    split
    · nofun
    · refine ((Setting.of p options).passing_safe callee _).bind fun flags _ => ?_
      refine (h.arguments_safe options arguments flags).bind fun _ _ => ?_
      exact (h.fetchResult_safe options callee).bind fun _ _ => .ok _
  | .unary _ operand _, byReference => by
    rw [Setting.expression]
    split
    · nofun
    · exact (h.expression_safe options operand false).bind fun _ _ => .ok _
  | .binary _ left right _, byReference => by
    rw [Setting.expression]
    split
    · nofun
    · refine (h.expression_safe options left false).bind fun _ _ => ?_
      dsimp only
      split
      · exact .ok _
      · exact (h.expression_safe options right false).bind fun _ _ => .ok _
  | .cast operand ty, byReference => by
    rw [Setting.expression]
    split
    · nofun
    · refine (h.expression_safe options operand false).bind fun _ _ => ?_
      exact (operand.ty.conversion_safe ty).bind fun _ _ => .ok _

theorem steps_safe (h : p.Measured) (options : Options) :
    ∀ (indexes : List Expression) {v : Variable}, v.Fits v.dimensions →
    ∀ depth, Safe ((Setting.of p options).steps v depth indexes)
  | [], _, _, _ => .ok _
  | index :: rest, v, hv, depth => by
    rw [Setting.steps]
    refine (h.expression_safe options index false).bind fun _ _ => ?_
    refine ((Setting.of p options).select_safe hv depth).bind fun _ _ => ?_
    exact (h.steps_safe options rest hv (depth + 1)).bind fun _ _ => .ok _

theorem arguments_safe (h : p.Measured) (options : Options) :
    ∀ (arguments : List Expression) (flags : List Bool),
    Safe ((Setting.of p options).arguments flags arguments)
  | [], _ => .ok _
  | _ :: _, [] => .ok _
  | argument :: rest, flag :: flags => by
    rw [Setting.arguments]
    refine (h.expression_safe options argument flag).bind fun _ _ => ?_
    exact (h.arguments_safe options rest flags).bind fun _ _ => .ok _

end

/-! ## Statements -/

theorem call_safe (h : p.Measured) (options : Options) (c : Call) :
    Safe ((Setting.of p options).call c) := by
  refine ((Setting.of p options).passing_safe c.callee _).bind fun flags _ => ?_
  exact (h.arguments_safe options c.arguments flags).bind fun _ _ => .ok _

theorem element_safe (h : p.Measured) (options : Options) (id : VariableId)
    (indexes : List Expression) : Safe ((Setting.of p options).element id indexes) := by
  refine ((MemoryMap.of p).declared_safe id).bind fun v hd => ?_
  refine (h.load_safe options id).bind fun _ _ => ?_
  exact (h.steps_safe options indexes (h.declared_fits hd) 0).bind fun _ _ => .ok _

theorem assignment_safe (h : p.Measured) (options : Options) (a : Assignment) :
    Safe ((Setting.of p options).assignment a) := by
  refine ((MemoryMap.of p).declared_safe a.target).bind fun v _ => ?_
  refine (h.expression_safe options a.value false).bind fun _ _ => ?_
  dsimp only
  split
  · split
    · exact (h.load_safe options a.target).bind fun _ _ => .ok _
    · exact (h.store_safe options a.target).bind fun _ _ => .ok _
  · exact (h.element_safe options a.target a.indexes).bind fun _ _ => .ok _

theorem copyResult_safe (h : p.Measured) (options : Options) (sub : Subroutine) :
    Safe ((Setting.of p options).copyResult sub) := by
  refine h.resultCell_safe.bind fun cell _ => ?_
  split
  · exact (h.load_safe options _).bind fun _ _ => .ok _
  · exact .ok _

theorem releaseFrame_safe (h : p.Measured) {sub : Subroutine} (hs : sub ∈ p.allSubroutines) :
    Safe (Setting.releaseFrame sub) := by
  obtain ⟨pointer, hpointer, _⟩ := h.exists_frameCell hs
  exact (Safe.of_exists ⟨pointer, hpointer⟩).bind fun _ _ => .ok _

theorem returnLine_safe (h : p.Measured) (options : Options) (value : Option Expression)
    {routine : Routine} (hr : ∀ sub, routine = .subroutine sub → sub ∈ p.allSubroutines) :
    Safe ((Setting.of p options).returnLine value routine) := by
  cases routine with
  | program _ => exact .ok _
  | subroutine sub =>
    have released (result : Line) :
        Safe (Setting.releaseFrame sub >>= fun released => pure (result ++ released)) :=
      (h.releaseFrame_safe (hr sub rfl)).bind fun _ _ => .ok _
    rw [Setting.returnLine]
    refine h.resultCell_safe.bind fun cell _ => ?_
    dsimp only
    split
    · exact (h.expression_safe options _ false).bind fun _ _ => released _
    · exact (h.copyResult_safe options sub).bind fun _ _ => released _

mutual

theorem statement_safe (h : p.Measured) (options : Options) {routine : Routine}
    (hr : ∀ sub, routine = .subroutine sub → sub ∈ p.allSubroutines) :
    ∀ (st : Statement) (start : Nat), start + st.lineCount < UInt64.size →
      Safe ((Setting.of p options).statement routine start st)
  | .assign a, start, hsize => by
    rw [Setting.statement]
    exact (h.assignment_safe options a).bind fun _ _ => .ok _
  | .call c, start, hsize => by
    rw [Setting.statement]
    exact (h.call_safe options c).bind fun _ _ => .ok _
  | .ret value, start, hsize => by
    rw [Setting.statement]
    exact (h.returnLine_safe options value hr).bind fun _ _ => .ok _
  | .pass, start, hsize => by
    rw [Setting.statement]
    exact .ok _
  | .ifElse condition thenBody elseBody, start, hsize => by
    rw [Statement.lineCount] at hsize
    rw [Setting.statement]
    refine (h.expression_safe options condition false).bind fun test _ => ?_
    refine Address.add_bind_safe (by omega) ?_
    refine (h.statements_safe options hr thenBody _ (by omega)).bind fun thenLines hthen => ?_
    have hcount := Setting.statements_length thenBody hthen
    refine Address.add_bind_safe (by omega) ?_
    split
    · exact .ok _
    · next hne =>
      rw [if_neg hne] at hsize
      refine Address.add_bind_safe (by omega) ?_
      refine (h.statements_safe options hr elseBody _ (by omega)).bind fun elseLines helse => ?_
      have hcount' := Setting.statements_length elseBody helse
      exact (Address.add_safe (by omega)).bind fun _ _ => .ok _
  | .whileDo condition body, start, hsize => by
    rw [Statement.lineCount] at hsize
    rw [Setting.statement]
    refine (h.expression_safe options condition false).bind fun test _ => ?_
    refine Address.add_bind_safe (by omega) ?_
    refine (h.statements_safe options hr body _ (by omega)).bind fun lines hlines => ?_
    have hcount := Setting.statements_length body hlines
    refine Address.add_bind_safe (by omega) ?_
    exact (Address.add_safe (by omega)).bind fun _ _ => .ok _
  | .repeatUntil condition body, start, hsize => by
    rw [Statement.lineCount] at hsize
    rw [Setting.statement]
    refine (h.statements_safe options hr body _ (by omega)).bind fun lines hlines => ?_
    exact (h.expression_safe options condition false).bind fun _ _ => .ok _
  | .forLoop initial condition change body, start, hsize => by
    rw [Statement.lineCount] at hsize
    rw [Setting.statement]
    refine (h.assignment_safe options initial).bind fun _ _ => ?_
    refine Address.add_bind_safe (by omega) ?_
    refine (h.expression_safe options condition false).bind fun _ _ => ?_
    refine Address.add_bind_safe (by omega) ?_
    refine (h.statements_safe options hr body _ (by omega)).bind fun lines hlines => ?_
    have hcount := Setting.statements_length body hlines
    refine Address.add_bind_safe (by omega) ?_
    refine (Address.add_safe (by omega)).bind fun _ _ => ?_
    exact (h.assignment_safe options change).bind fun _ _ => .ok _

theorem statements_safe (h : p.Measured) (options : Options) {routine : Routine}
    (hr : ∀ sub, routine = .subroutine sub → sub ∈ p.allSubroutines) :
    ∀ (ss : List Statement) (start : Nat), start + Statement.lineCountAll ss < UInt64.size →
      Safe ((Setting.of p options).statements routine start ss)
  | [], start, hsize => by
    rw [Setting.statements]
    exact .ok _
  | head :: rest, start, hsize => by
    rw [Statement.lineCountAll] at hsize
    rw [Setting.statements]
    refine (Address.check_safe (by omega)).bind fun _ hstart => ?_
    obtain ⟨_, rfl⟩ := Address.check_eq_ok.mp hstart
    refine (h.statement_safe options hr head _ (by omega)).bind fun here hhere => ?_
    have hcount := Setting.statement_length head hhere
    exact (h.statements_safe options hr rest _ (by omega)).bind fun _ _ => .ok _

end

/-! ## Subroutines -/

theorem receive_safe (h : p.Measured) (options : Options) (id : VariableId) (v : Variable) :
    Safe ((Setting.of p options).receive id v) := by
  unfold Setting.receive
  split
  · exact (h.load_safe options id).bind fun _ _ => .ok _
  · refine Safe.bind ((h.location_safe id).bind fun place _ => ?_) fun _ _ => .ok _
    split
    · exact .ok _
    · nofun

theorem receiveAll_safe (h : p.Measured) (options : Options) (routine : UInt64) :
    ∀ slots : List (Variable × Nat), Safe ((Setting.of p options).receiveAll routine slots)
  | [] => .ok _
  | (v, slot) :: rest => by
    rw [Setting.receiveAll]
    refine (h.receive_safe options _ v).bind fun _ _ => ?_
    exact (h.receiveAll_safe options routine rest).bind fun _ _ => .ok _

theorem prologue_safe (h : p.Measured) (options : Options) {sub : Subroutine}
    (hs : sub ∈ p.allSubroutines) : Safe ((Setting.of p options).prologue sub) := by
  obtain ⟨pointer, hpointer, _⟩ := h.exists_frameCell hs
  obtain ⟨length, hlength, _⟩ := (h.laid hs).exists_total (Int.le_refl 0)
  refine (Safe.of_exists ⟨pointer, hpointer⟩).bind fun _ hclaimed => ?_
  refine (Safe.of_exists ⟨length, hlength⟩).bind fun _ _ => ?_
  refine (Safe.of_exists ((h.framed hs hclaimed).exists_headers _)).bind fun _ _ => ?_
  exact (h.receiveAll_safe options _ _).bind fun _ _ => .ok _

theorem epilogue_safe (h : p.Measured) (options : Options) {sub : Subroutine}
    (hs : sub ∈ p.allSubroutines) : Safe ((Setting.of p options).epilogue sub) := by
  refine (h.copyResult_safe options sub).bind fun _ _ => ?_
  exact (h.releaseFrame_safe hs).bind fun _ _ => .ok _

theorem subroutineLines_safe (h : p.Measured) (options : Options) {sub : Subroutine}
    (hs : sub ∈ p.allSubroutines) {start : Nat} (hsize : start + sub.lineCount < UInt64.size) :
    Safe ((Setting.of p options).subroutineLines sub start) := by
  unfold Subroutine.lineCount at hsize
  refine (h.prologue_safe options hs).bind fun _ _ => ?_
  refine Address.add_bind_safe (by omega) ?_
  refine (h.statements_safe options ?_ sub.statements _ (by omega)).bind fun _ _ => ?_
  · rintro sub' he
    obtain rfl := Routine.subroutine.inj he
    exact hs
  · exact (h.epilogue_safe options hs).bind fun _ _ => .ok _

theorem place_safe (h : p.Measured) (options : Options) : ∀ (subs : List Subroutine) (cursor : Nat),
    (∀ sub ∈ subs, sub ∈ p.allSubroutines) →
    cursor + Subroutine.lineCountAll subs < UInt64.size →
    Safe ((Setting.of p options).place cursor subs)
  | [], _, _, _ => .ok _
  | sub :: rest, cursor, hs, hsize => by
    rw [Subroutine.lineCountAll] at hsize
    rw [Setting.place]
    refine (h.subroutineLines_safe options (hs sub List.mem_cons_self) (by omega)).bind
      fun code hcode => ?_
    have hcount := Setting.subroutineLines_length hcode
    refine Address.add_bind_safe (by omega) ?_
    exact (h.place_safe options rest _ (fun u hu => hs u (List.mem_cons_of_mem _ hu))
      (by omega)).bind fun _ _ => .ok _

theorem subroutineBlock_safe (h : p.Measured) (options : Options) {start : Nat}
    (hsize : start + p.blockLines < UInt64.size) :
    Safe ((Setting.of p options).subroutineBlock start) := by
  unfold Setting.subroutineBlock
  unfold blockLines at hsize
  split
  · exact .ok _
  · next hne =>
    have hsome : ¬p.allSubroutines.isEmpty = true := hne
    rw [if_neg hsome] at hsize
    refine Address.add_bind_safe (by omega) ?_
    exact (h.place_safe options p.allSubroutines _ (fun _ hs => hs) (by omega)).bind
      fun _ _ => .ok _

theorem assemble_safe (h : p.Measured) (options : Options) (hsize : p.lineTotal < UInt64.size) :
    Safe (Setting.of p options).assemble := by
  obtain ⟨_, _, _, _, first, _, _, _, _, _, hfirst, _⟩ := h.exists_startup options
  have hstart := Setting.startup_length hfirst
  unfold lineTotal at hsize
  refine (Safe.of_exists ⟨first, hfirst⟩).bind fun first' hfirst' => ?_
  obtain rfl := Except.ok.inj (hfirst.symm.trans hfirst')
  refine (h.subroutineBlock_safe options (by omega)).bind ?_
  rintro ⟨block, placed⟩ hblock
  have hcount := Setting.subroutineBlock_length hblock
  refine (h.statements_safe options (by nofun) p.statements _ ?_).bind fun _ _ => .ok _
  rw [List.length_append]
  omega

end Measured

end Program

/-! ## Linking -/

theorem resolveLine_fault (placed : Placements) (address : Nat) (operation : Arithmetic) :
    ∀ (line : Line) (previous : Option Word),
      (resolveLine placed address previous line).fault ≠ some (.overflow operation)
  | [], _ => nofun
  | .op _ :: rest, previous | .int _ :: rest, previous => by
    rw [resolveLine]
    exact resolveLine_fault placed address operation rest _
    all_goals nofun
  | .call index :: rest, previous => by
    rw [resolveLine]
    split
    · split
      · exact resolveLine_fault placed address operation rest _
      · nofun
    · nofun

theorem resolveFrom_fault (placed : Placements) (operation : Arithmetic) :
    ∀ (lines : List Line) (address : Nat),
      (resolveFrom placed address lines).fault ≠ some (.overflow operation)
  | [], _ => nofun
  | line :: rest, address => by
    have here := resolveLine_fault placed address operation line none
    rw [resolveFrom]
    dsimp only
    split
    · next fault hfault =>
      rw [hfault] at here
      exact here
    · exact resolveFrom_fault placed operation rest _

theorem lowerLine_safe (address : Nat) : ∀ line : Line, Safe (lowerLine address line)
  | [] => .ok _
  | .op _ :: rest | .int _ :: rest => by
    rw [lowerLine]
    exact (lowerLine_safe address rest).bind fun _ _ => .ok _
  | .call _ :: _ => nofun

theorem lowerFrom_safe : ∀ (lines : List Line) (address : Nat), Safe (lowerFrom address lines)
  | [], _ => .ok _
  | line :: rest, address => by
    rw [lowerFrom]
    refine (lowerLine_safe address line).bind fun _ _ => ?_
    exact (lowerFrom_safe rest _).bind fun _ _ => .ok _

namespace Pcode

theorem checkTargets_safe (size address : Nat) : ∀ is, Safe (checkTargets size address is)
  | [] => .ok _
  | i :: rest => by
    rw [checkTargets]
    split
    · split
      · exact checkTargets_safe size address rest
      · nofun
    · exact checkTargets_safe size address rest

theorem checkFrom_safe (size : Nat) : ∀ lines address, Safe (checkFrom size address lines)
  | [], _ => .ok _
  | [] :: _, _ => nofun
  | (value :: more) :: rest, address => by
    have decoded : Safe (decodeLine address (value :: more)) := by
      unfold decodeLine
      split
      · exact .ok _
      · nofun
    rw [checkFrom]
    · refine decoded.bind fun is _ => ?_
      exact (checkTargets_safe size address is).bind fun _ _ => checkFrom_safe size rest _
    · nofun

end Pcode

theorem link_safe (a : Assembly) : Safe (link a) := by
  have resolved : Safe (resolveCalls a.placements a.lines).count := by
    unfold Resolution.count
    split
    · next fault hfault =>
      rintro operation he
      rw [Except.error.inj he] at hfault
      exact resolveFrom_fault a.placements operation a.lines 0 hfault
    · exact .ok _
  refine resolved.bind fun _ _ => ?_
  refine ((lowerFrom_safe _ 0).bind fun _ _ => .ok _ : Safe (lower _)).bind fun q _ => ?_
  exact (Pcode.checkFrom_safe q.size q.lines 0).bind fun _ _ => .ok _

/-- **No arithmetic overflows if memory fits.**  Let the indexes of the subroutines be the numbers
from 1 on, let every variable fit, and let the globals and each frame fit too.  If the lines can be
counted, the making of a program does not end in an overflow, whatever the options are.  The length
of every part of a variable is computed, and is exact; so is the place of every variable; and the
headers of the globals and of each frame are made. -/
theorem generate_never_overflows {p : Program} (h : p.Measured) (hlines : p.lineTotal < UInt64.size)
    (options : Options) :
    (∀ operation, generate p options ≠ .error (.overflow operation)) ∧
    (∀ v ∈ p.allDeclarations, ∀ depth, ∃ w, v.storageLength depth = .ok w ∧
      w.toInt = v.extentOver (v.dimensions.drop depth)) ∧
    (∀ id v, (MemoryMap.of p).declared id = .ok v →
      ∃ place, (MemoryMap.of p).location id = .ok place) ∧
    (∃ lines, (Setting.of p options).startup = .ok lines) ∧
    ∀ sub ∈ p.allSubroutines, ∃ pointer length headers,
      MemoryMap.frameCell sub.index = .ok pointer ∧ MemoryMap.frameLength sub = .ok length ∧
      Region.allHeaders (.frame pointer) options.clearLocals Variable.headedInFrame 0
        sub.declarations = .ok headers := by
  refine ⟨?_, ?_, ?_, ?_, ?_⟩
  · exact (h.assemble_safe options hlines).bind fun a _ => link_safe a
  · intro v hv depth
    exact Variable.exists_lengthOver ((h.fits v hv).drop depth)
  · intro id v hd
    exact h.exists_location hd
  · obtain ⟨_, _, _, _, lines, _, _, _, _, _, hlines, _⟩ := h.exists_startup options
    exact ⟨lines, hlines⟩
  · intro sub hs
    obtain ⟨pointer, hpointer, _⟩ := h.exists_frameCell hs
    obtain ⟨length, hlength, _⟩ := (h.laid hs).exists_total (Int.le_refl 0)
    obtain ⟨headers, hheaders⟩ := (h.framed hs hpointer).exists_headers options.clearLocals
    exact ⟨pointer, length, headers, hpointer, hlength, hheaders⟩

/-- A procedure whose frame is as long as it can be: it holds one string. -/
def brim : Subroutine where
  index := 1
  name := "brim"
  declarations := [{ name := "all", ty := .string, stringLength := 9223372036854775804 }]

/-- A program with a pointer to an array that is as long as it can be, and a store into that
array. -/
def brimful : Program where
  name := "brimful"
  language := .c
  declarations :=
    [{ name := "view", ty := .integer, kind := .pointer, dimensions := [⟨1, 9223372036854775805⟩] }]
  subroutines := [brim]
  statements := [.assign ⟨⟨0, 0⟩, [.integer 1], .integer 0⟩]

theorem brimful_map : MemoryMap.of brimful = ⟨brimful, [brim]⟩ := by
  have hflat : Subroutine.flattenAll brimful.subroutines = [brim] := rfl
  rw [MemoryMap.of, Program.allSubroutines, hflat, List.mergeSort_singleton]

theorem brimful_measured : brimful.Measured := by
  refine ⟨⟨by decide +kernel, ?_, by decide +kernel⟩, by decide +kernel⟩
  rw [brimful_map]
  decide +kernel

theorem generate_never_overflows_brimful : brimful.Measured ∧ brimful.lineTotal = 6 ∧
    (∀ operation, generate brimful {} ≠ .error (.overflow operation)) ∧
    MemoryMap.frameLength brim = .ok Int64.maxValue := by
  have htotal : brimful.lineTotal = 6 := by decide +kernel
  have hlines : brimful.lineTotal < UInt64.size := by
    rw [htotal]
    decide
  exact ⟨brimful_measured, htotal, (generate_never_overflows brimful_measured hlines {}).1, by
    decide +kernel⟩

end TurtleCode
