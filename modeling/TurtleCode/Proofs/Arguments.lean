import TurtleCode.Proofs.Initialisation
import TurtleCode.Proofs.StackLaw

/-!
# Arguments reach their parameters

A call leaves the values of its arguments on the stack, the last one on top.  The first line of a
subroutine claims a frame, writes the headers of local storage, and then moves the values into the
parameters, from the last to the first.

* `Machine.copied`: the strings that a line copies while it runs.  `Machine.Copies` says this
  together with where the run leads, so that code can be put together.
* `Subroutine.position`: which argument a parameter gets.
* `Variable.Copied`: a parameter into whose storage the argument is copied; all others are one cell
  that the value is stored in.
* `MemoryMap.Framed.receive_runs`: what one argument does.  `MemoryMap.Framed.receiveAll_runs`: what
  all of them do, one after another.
* `arguments_reach_parameters`: what the whole first line does.
-/

namespace TurtleCode

/-! ## Strings that are copied -/

theorem Line.opcodes_flatMap_words (is : List Instruction) :
    Line.opcodes (is.flatMap Instruction.words) = is.map (·.op) := by
  induction is with
  | nil => rfl
  | cons i rest ih => simp [Instruction.words, ih]

namespace Machine

def copy? (i : Instruction) (t : MachineState) : Option (Int × Int) :=
  match i.op, t.stack with
  | .cstr, target :: source :: _ => some (source, target)
  | _, _ => none

def copies (M : Machine) : List Instruction → MachineState → List (Int × Int)
  | [], _ => []
  | i :: rest, t => (copy? i t).toList ++ ((M.exec i t).map (M.copies rest)).getD []

def copied (M : Machine) (line : Line) (t : MachineState) : List (Int × Int) :=
  (line.instructions?.map (M.copies · t)).getD []

/-- A line is made of instructions that lead from one state to another and copy some strings. -/
def Copies (M : Machine) (line : Line) (t t' : MachineState) (strings : List (Int × Int)) : Prop :=
  ∃ is, line = is.flatMap Instruction.words ∧ M.run is t = some t' ∧ M.copies is t = strings

variable {M : Machine} {a b : Line} {t t' t'' : MachineState} {xs ys : List (Int × Int)}

theorem copies_append {as bs : List Instruction} (h : M.run as t = some t') :
    M.copies (as ++ bs) t = M.copies as t ++ M.copies bs t' := by
  induction as generalizing t with
  | nil =>
    cases h
    rfl
  | cons i rest ih =>
    obtain ⟨t₁, hi, hrest⟩ := Option.bind_eq_some_iff.mp h
    rw [List.cons_append, copies, copies, hi, Option.map_some, Option.map_some, Option.getD_some,
      Option.getD_some, ih hrest, List.append_assoc]

theorem copies_eq_nil {is : List Instruction} (h : ∀ i ∈ is, i.op ≠ .cstr) (t : MachineState) :
    M.copies is t = [] := by
  induction is generalizing t with
  | nil => rfl
  | cons i rest ih =>
    have hi : copy? i t = none := by
      unfold copy?
      split
      · next hop _ => exact absurd hop (h i List.mem_cons_self)
      · rfl
    rw [copies, hi]
    cases M.exec i t with
    | none => rfl
    | some t' => exact ih (fun j hj => h j (List.mem_cons_of_mem _ hj)) t'

namespace Copies

theorem append (ha : M.Copies a t t' xs) (hb : M.Copies b t' t'' ys) :
    M.Copies (a ++ b) t t'' (xs ++ ys) := by
  obtain ⟨as, rfl, hA, rfl⟩ := ha
  obtain ⟨bs, rfl, hB, rfl⟩ := hb
  refine ⟨as ++ bs, List.flatMap_append.symm, ?_, copies_append hA⟩
  rw [run_append, hA]
  exact hB

theorem of_runs (h : M.Runs a t t') (hops : Opcode.cstr ∉ a.opcodes) : M.Copies a t t' [] := by
  obtain ⟨is, rfl, hrun⟩ := h
  rw [Line.opcodes_flatMap_words] at hops
  exact ⟨is, rfl, hrun, copies_eq_nil (fun i hi he => hops (List.mem_map.mpr ⟨i, hi, he⟩)) t⟩

theorem cstr {m m' : Memory} {target source : Int} {st : List Int}
    (h : M.other .cstr [] ⟨m, target :: source :: st⟩ = some ⟨m', st⟩) :
    M.Copies (instr .cstr []) ⟨m, target :: source :: st⟩ ⟨m', st⟩ [(source, target)] := by
  have hexec : M.exec ⟨.cstr, []⟩ ⟨m, target :: source :: st⟩ = some ⟨m', st⟩ := h
  refine ⟨[⟨.cstr, []⟩], by simp [Instruction.words], ?_, ?_⟩
  · rw [run, hexec]
    rfl
  · rw [copies, hexec]
    rfl

theorem runs (h : M.Copies a t t' xs) : M.Runs a t t' := by
  obtain ⟨is, hline, hrun, _⟩ := h
  exact ⟨is, hline, hrun⟩

theorem copied_eq (h : M.Copies a t t' xs) : M.copied a t = xs := by
  obtain ⟨is, hline, _, hcopies⟩ := h
  rw [copied, Line.instructions?_eq_some_iff.mpr hline]
  exact hcopies

end Copies

/-- To copy a string takes a destination and a source.  The destination is storage that begins with
the number of characters that fit; its length now and its characters are all that changes. -/
def CopiesStrings (M : Machine) : Prop :=
  ∀ m target source st, ∃ m', M.other .cstr [] ⟨m, target :: source :: st⟩ = some ⟨m', st⟩ ∧
    ∀ k, ¬(target < k ∧ k < target + 2 + m target) → m' k = m k

end Machine

/-! ## Parameters and their positions -/

namespace Subroutine

def position (sub : Subroutine) (slot : Nat) : Nat :=
  (sub.declarations.take slot).countP (·.parameter)

def cellIn (sub : Subroutine) (base : Int) (slot : Nat) : Int :=
  base + Variable.extentAll (sub.declarations.take slot)

/-- **Which argument a parameter gets**: one for each parameter before it has been passed. -/
theorem parameterSlots_getElem? {sub : Subroutine} {j slot : Nat} {v : Variable} :
    sub.parameterSlots[j]? = some (v, slot) ↔
      sub.declarations[slot]? = some v ∧ v.parameter = true ∧ sub.position slot = j := by
  have key (l : List Variable) : ∀ i j,
      ((l.zipIdx i).filter fun entry => entry.1.parameter)[j]? = some (v, slot) ↔
        ∃ k, slot = i + k ∧ l[k]? = some v ∧ v.parameter = true ∧
          (l.take k).countP (·.parameter) = j := by
    induction l with
    | nil => simp
    | cons u rest ih =>
      intro i j
      -- the slot is that of `u`, or one of the rest
      rw [List.zipIdx_cons, List.filter_cons, ← Nat.or_exists_add_one]
      simp only [List.getElem?_cons_zero, List.getElem?_cons_succ, List.take_zero,
        List.take_succ_cons, List.countP_cons, List.countP_nil]
      cases hu : u.parameter with
      | true =>
        cases j with
        | zero => grind
        | succ j =>
          rw [if_pos rfl, List.getElem?_cons_succ, ih]
          grind
      | false =>
        rw [if_neg (by simp), ih]
        grind
  rw [parameterSlots, key]
  simp [position]

end Subroutine

def Variable.Copied (v : Variable) : Prop := v.kind = .value ∧ v.ty = .string ∧ v.dimensions = []

instance (v : Variable) : Decidable v.Copied := inferInstanceAs (Decidable (_ ∧ _ ∧ _))

namespace Variable.Copied

variable {v : Variable}

theorem extent_eq (h : v.Copied) : v.extent = v.stringLength.toNat + 3 := by
  rw [extent_eq_extentOver h.1, h.2.2, extentOver, scalarExtent, if_pos h.2.1]

theorem headedInFrame (h : v.Copied) : v.headedInFrame = true := by
  simp [Variable.headedInFrame, ownsStorage, isArray, h.1, h.2.1, h.2.2]

end Variable.Copied

/-! ## One argument -/

structure Setting.Receives (s : Setting) (M : Machine) (sub : Subroutine) (base : Int)
    (slot : Nat) (v : Variable) (x : Int) (st : List Int) (m m' : Memory) : Prop where
  runs : ∃ piece, s.receive ⟨sub.index, slot.toUInt64⟩ v = .ok piece ∧
    M.Runs piece ⟨m, x :: st⟩ ⟨m', st⟩
  stored : ¬v.Copied → m' (sub.cellIn base slot) = x
  inside : ∀ k, m' k ≠ m k → sub.cellIn base slot ≤ k ∧ k < sub.cellIn base slot + v.extent

/-- A frame at `base` is in place, and the strings in it have their headers, as far as these do not
change. -/
structure Subroutine.Ready (sub : Subroutine) (pointer : Int64) (base : Int)
    (m : Memory) : Prop where
  claimed : m pointer.toInt = base
  strings : ∀ {slot : Nat} {v : Variable}, sub.declarations[slot]? = some v → v.Copied →
    m (sub.cellIn base slot) = sub.cellIn base slot + 1 ∧
      m (sub.cellIn base slot + 1) = v.stringLength.toNat

namespace MemoryMap.Framed

variable {s : Setting} {sub : Subroutine} {pointer : Int64} {base : Int} {slot : Nat} {v : Variable}
  {M : Machine} {m m' : Memory}

theorem cell?_eq (h : s.map.Framed sub pointer) (hm : m pointer.toInt = base) {slot : UInt64}
    (hv : sub.declarations[slot.toNat]? = some v) (ht : v.isTurtle = false) :
    s.cell? m ⟨sub.index, slot⟩ = some (sub.cellIn base slot.toNat) := by
  obtain ⟨offset, hplace, hoffset⟩ := h.location hv ht
  rw [Setting.cell?, hplace, Subroutine.cellIn, ← hm, ← hoffset]
  rfl

theorem receive_eq (h : s.map.Framed sub pointer) (hv : sub.declarations[slot]? = some v)
    (ht : v.isTurtle = false) :
    ∃ offset, offset.toInt = Variable.extentAll (sub.declarations.take slot) ∧
      s.receive ⟨sub.index, slot.toUInt64⟩ v = .ok (if v.Copied then
        instr .ldvv [pointer, offset] ++ instr .cstr [] else instr .stvv [pointer, offset]) := by
  have hslot := h.laid.toNat_slot hv
  have hv' : sub.declarations[slot.toUInt64.toNat]? = some v := by rw [hslot, hv]
  obtain ⟨offset, hplace, hoffset⟩ := h.location hv' ht
  rw [hslot] at hoffset
  have hdeclared : s.map.declared ⟨sub.index, slot.toUInt64⟩ = .ok v :=
    declared_eq_ok.mpr ⟨_, h.found, hv'⟩
  refine ⟨offset, hoffset, ?_⟩
  unfold Setting.receive
  by_cases hc : v.Copied
  · have hload : s.load ⟨sub.index, slot.toUInt64⟩ = .ok (instr .ldvv [pointer, offset]) := by
      unfold Setting.load
      rw [hdeclared, hplace]
      simp only [bind, Except.bind, hc.1]
      rfl
    rw [if_pos hc]
    refine (if_pos hc).trans ?_
    rw [hload]
    rfl
  · rw [if_neg hc]
    refine (if_neg hc).trans ?_
    rw [Setting.localCell, hplace]
    rfl

theorem cellIn_bounds (h : s.map.Framed sub pointer) (hv : sub.declarations[slot]? = some v)
    (base : Int) : base ≤ sub.cellIn base slot ∧
      sub.cellIn base slot + v.extent ≤ base + Variable.extentAll sub.declarations := by
  have hbefore : 0 ≤ Variable.extentAll (sub.declarations.take slot) :=
    Variable.extentAll_nonneg fun u hu => h.laid.sized u (List.mem_of_mem_take hu)
  have hend := Variable.extentAll_take_add_le h.laid.sized hv
  unfold Subroutine.cellIn
  omega

theorem cellIn_unique (h : s.map.Framed sub pointer) {slot' : Nat} {v' : Variable}
    (hv : sub.declarations[slot]? = some v) (hv' : sub.declarations[slot']? = some v') {k : Int}
    (hk : sub.cellIn base slot ≤ k ∧ k < sub.cellIn base slot + v.extent)
    (hk' : sub.cellIn base slot' ≤ k ∧ k < sub.cellIn base slot' + v'.extent) : slot = slot' := by
  unfold Subroutine.cellIn at hk hk'
  exact Variable.slot_unique h.laid.sized hv hv' (k := k - base) (by omega) (by omega)

/-- A frame stays in place if what changes are the cells of one local, and if this is a string, not
the first two of them. -/
theorem ready_of_changes (h : s.map.Framed sub pointer) (hv : sub.declarations[slot]? = some v)
    (hapart : ¬(base ≤ pointer.toInt ∧ pointer.toInt < base + Variable.extentAll sub.declarations))
    (hm : sub.Ready pointer base m) (hm' : ∀ k, m' k ≠ m k →
      sub.cellIn base slot ≤ k ∧ k < sub.cellIn base slot + v.extent ∧
        (v.Copied → sub.cellIn base slot + 1 < k)) : sub.Ready pointer base m' := by
  have hbounds := h.cellIn_bounds hv base
  constructor
  · rw [← hm.claimed]
    by_contra hne
    have hk := hm' _ hne
    exact hapart ⟨by omega, by omega⟩
  · intro slot' v' hv' hc
    have hextent := hc.extent_eq
    have kept {k : Int} (hlo : sub.cellIn base slot' ≤ k) (hhi : k ≤ sub.cellIn base slot' + 1) :
        m' k = m k := by
      by_contra hne
      obtain ⟨hlo', hhi', hstring⟩ := hm' k hne
      obtain rfl := h.cellIn_unique hv hv' ⟨hlo', hhi'⟩ ⟨hlo, by omega⟩
      obtain rfl := Option.some.inj (hv.symm.trans hv')
      have := hstring hc
      omega
    rw [kept (Int.le_refl _) (by omega), kept (by omega) (Int.le_refl _)]
    exact hm.strings hv' hc

/-- **What one argument does**: it is stored in the cell of its parameter, or copied to where this
points.  Nothing else changes. -/
theorem receive_runs (h : s.map.Framed sub pointer) (hM : M.CopiesStrings)
    (hapart : ¬(base ≤ pointer.toInt ∧ pointer.toInt < base + Variable.extentAll sub.declarations))
    (hv : sub.declarations[slot]? = some v) (ht : v.isTurtle = false)
    (hm : sub.Ready pointer base m) {code : Line}
    (hcode : s.receive ⟨sub.index, slot.toUInt64⟩ v = .ok code) (x : Int) (st : List Int) :
    ∃ m', M.Copies code ⟨m, x :: st⟩ ⟨m', st⟩
        (if v.Copied then [(x, sub.cellIn base slot + 1)] else []) ∧
      sub.Ready pointer base m' ∧ (¬v.Copied → m' (sub.cellIn base slot) = x) ∧
      ∀ k, m' k ≠ m k → sub.cellIn base slot ≤ k ∧ k < sub.cellIn base slot + v.extent := by
  obtain ⟨offset, hoffset, hreceive⟩ := h.receive_eq hv ht
  obtain rfl := Except.ok.inj (hreceive.symm.trans hcode)
  have hcell : m pointer.toInt + offset.toInt = sub.cellIn base slot := by
    rw [hm.claimed, hoffset, Subroutine.cellIn]
  by_cases hc : v.Copied
  · obtain ⟨hpointer, hcapacity⟩ := hm.strings hv hc
    have hextent := hc.extent_eq
    obtain ⟨m', hcopy, hsame⟩ := hM m (sub.cellIn base slot + 1) x st
    rw [hcapacity] at hsame
    have hload : M.Runs (instr .ldvv [pointer, offset]) ⟨m, x :: st⟩
        ⟨m, (sub.cellIn base slot + 1) :: x :: st⟩ := by
      rw [← hpointer, ← hcell]
      exact .instr rfl
    have hchanges : ∀ k, m' k ≠ m k → sub.cellIn base slot ≤ k ∧
        k < sub.cellIn base slot + v.extent ∧ (v.Copied → sub.cellIn base slot + 1 < k) := by
      intro k hk
      have hin := not_not.mp (mt (hsame k) hk)
      exact ⟨by omega, by omega, fun _ => hin.1⟩
    rw [if_pos hc, if_pos hc]
    refine ⟨m', (Machine.Copies.of_runs hload (by simp)).append (.cstr hcopy),
      h.ready_of_changes hv hapart hm hchanges, fun hn => absurd hc hn, fun k hk => ?_⟩
    exact ⟨(hchanges k hk).1, (hchanges k hk).2.1⟩
  · have hone := (h.laid.sized v (List.mem_of_getElem? hv)).one_le_extent ht
    have hstore : M.Runs (instr .stvv [pointer, offset]) ⟨m, x :: st⟩
        ⟨Function.update m (sub.cellIn base slot) x, st⟩ := by
      rw [← hcell]
      exact .instr rfl
    have hchanges : ∀ k, Function.update m (sub.cellIn base slot) x k ≠ m k →
        k = sub.cellIn base slot := fun k hk =>
      not_not.mp (mt (fun hne => Function.update_of_ne hne x m) hk)
    rw [if_neg hc, if_neg hc]
    refine ⟨_, .of_runs hstore (by simp),
      h.ready_of_changes hv hapart hm fun k hk => ?_, fun _ => Function.update_self ..,
      fun k hk => ?_⟩
    · have := hchanges k hk
      exact ⟨by omega, by omega, fun hn => absurd hn hc⟩
    · have := hchanges k hk
      omega

/-! ## All arguments -/

theorem parameter_slot (hturtle : ∀ v ∈ sub.parameters, v.isTurtle = false) {j : Nat}
    (hj : sub.parameterSlots[j]? = some (v, slot)) :
    sub.declarations[slot]? = some v ∧ v.isTurtle = false ∧ sub.position slot = j := by
  obtain ⟨hv, hparameter, hposition⟩ := Subroutine.parameterSlots_getElem?.mp hj
  exact ⟨hv, hturtle v (List.mem_filter.mpr ⟨List.mem_of_getElem? hv, hparameter⟩), hposition⟩

theorem exists_receiveAll (h : s.map.Framed sub pointer) : ∀ {entries : List (Variable × Nat)},
    (∀ v slot, (v, slot) ∈ entries → sub.declarations[slot]? = some v ∧ v.isTurtle = false) →
    ∃ code, s.receiveAll sub.index entries = .ok code := by
  intro entries
  induction entries with
  | nil => exact fun _ => ⟨[], rfl⟩
  | cons entry rest ih =>
    intro hentries
    obtain ⟨v, slot⟩ := entry
    obtain ⟨hv, ht⟩ := hentries v slot List.mem_cons_self
    obtain ⟨offset, _, hhere⟩ := h.receive_eq hv ht
    obtain ⟨more, hmore⟩ := ih fun u i hu => hentries u i (List.mem_cons_of_mem _ hu)
    rw [Setting.receiveAll, hhere, hmore]
    exact ⟨_, rfl⟩

/-- **What all arguments do**, the last one first.  `after j` is memory when `j` arguments are still
on the stack. -/
theorem receiveAll_runs (h : s.map.Framed sub pointer) (hM : M.CopiesStrings)
    (hapart : ¬(base ≤ pointer.toInt ∧ pointer.toInt < base + Variable.extentAll sub.declarations))
    (hturtle : ∀ v ∈ sub.parameters, v.isTurtle = false) {values : List Int}
    (hlength : values.length = sub.parameterSlots.length) (st : List Int) :
    ∀ {n : Nat} {code : Line} {m : Memory}, n ≤ sub.parameterSlots.length →
      s.receiveAll sub.index (sub.parameterSlots.take n).reverse = .ok code →
      sub.Ready pointer base m →
      ∃ (after : Nat → Memory) (strings : List (Int × Int)), after n = m ∧
        M.Copies code ⟨m, (values.take n).reverse ++ st⟩ ⟨after 0, st⟩ strings ∧
        List.Forall₂ (fun entry string => values[sub.position entry.2]? = some string.1 ∧
            string.2 = sub.cellIn base entry.2 + 1)
          ((sub.parameterSlots.take n).filter (·.1.Copied)).reverse strings ∧
        sub.Ready pointer base (after 0) ∧
        ∀ j v slot x, j < n → sub.parameterSlots[j]? = some (v, slot) → values[j]? = some x →
          s.Receives M sub base slot v x ((values.take j).reverse ++ st)
            (after (j + 1)) (after j) := by
  intro n
  induction n with
  | zero =>
    intro code m _ hcode hm
    obtain rfl : [] = code := Except.ok.inj hcode
    exact ⟨fun _ => m, [], rfl, .of_runs .nil (by simp [Line.opcodes]), .nil, hm,
      fun j _ _ _ hj => absurd hj (Nat.not_lt_zero j)⟩
  | succ n ih =>
    intro code m hn hcode hm
    obtain ⟨⟨v, slot⟩, hentry⟩ : ∃ entry, sub.parameterSlots[n]? = some entry :=
      ⟨_, List.getElem?_eq_getElem hn⟩
    obtain ⟨x, hx⟩ : ∃ x, values[n]? = some x :=
      ⟨_, List.getElem?_eq_getElem (by omega)⟩
    obtain ⟨hv, ht, hposition⟩ := parameter_slot hturtle hentry
    have hslots : sub.parameterSlots.take (n + 1) = sub.parameterSlots.take n ++ [(v, slot)] := by
      rw [List.take_add_one, hentry]
      rfl
    have hvalues : values.take (n + 1) = values.take n ++ [x] := by
      rw [List.take_add_one, hx]
      rfl
    rw [hslots, List.reverse_append, List.reverse_singleton, List.singleton_append,
      Setting.receiveAll] at hcode
    simp only [Result.bind_eq_ok, Result.pure_eq_ok] at hcode
    obtain ⟨here, hhere, more, hmore, rfl⟩ := hcode
    obtain ⟨m', hruns, hready, hstored, hinside⟩ :=
      h.receive_runs hM hapart hv ht hm hhere x ((values.take n).reverse ++ st)
    obtain ⟨after, strings, rfl, hrest, hstrings, hlast, hreceives⟩ :=
      ih (Nat.le_of_succ_le hn) hmore hready
    refine ⟨Function.update after (n + 1) m,
      (if v.Copied then [(x, sub.cellIn base slot + 1)] else []) ++ strings,
      Function.update_self .., ?_, ?_, ?_, ?_⟩
    · rw [hvalues, List.reverse_append, List.reverse_singleton, List.singleton_append,
        Function.update_of_ne (Nat.succ_ne_zero n).symm]
      exact hruns.append hrest
    · rw [hslots, List.filter_append, List.reverse_append]
      by_cases hc : v.Copied
      · simp only [List.filter_cons, List.filter_nil, decide_eq_true hc, if_pos, if_pos hc]
        refine .cons ⟨?_, rfl⟩ hstrings
        rw [hposition, hx]
      · simp only [List.filter_cons, List.filter_nil, decide_eq_false hc, if_neg hc]
        exact hstrings
    · rw [Function.update_of_ne (Nat.succ_ne_zero n).symm]
      exact hlast
    · intro j u i y hj hu hy
      rw [Function.update_of_ne (by omega : j ≠ n + 1)]
      rcases Nat.lt_succ_iff_lt_or_eq.mp hj with hlt | rfl
      · rw [Function.update_of_ne (by omega : j + 1 ≠ n + 1)]
        exact hreceives j u i y hlt hu hy
      · obtain ⟨rfl, rfl⟩ := Prod.mk.inj (Option.some.inj (hentry.symm.trans hu))
        obtain rfl := Option.some.inj (hx.symm.trans hy)
        rw [Function.update_self]
        exact ⟨⟨here, hhere, hruns.runs⟩, hstored, hinside⟩

theorem stored_remains (h : s.map.Framed sub pointer)
    (hturtle : ∀ v ∈ sub.parameters, v.isTurtle = false) {values st : List Int}
    (hlength : values.length = sub.parameterSlots.length) {after : Nat → Memory}
    (hreceives : ∀ j v slot x, j < sub.parameterSlots.length →
      sub.parameterSlots[j]? = some (v, slot) → values[j]? = some x →
      s.Receives M sub base slot v x ((values.take j).reverse ++ st) (after (j + 1)) (after j))
    {j : Nat} {x : Int} (hj : sub.parameterSlots[j]? = some (v, slot)) (hx : values[j]? = some x)
    (hc : ¬v.Copied) : after 0 (sub.cellIn base slot) = x := by
  obtain ⟨hv, ht, hposition⟩ := parameter_slot hturtle hj
  have hone := (h.laid.sized v (List.mem_of_getElem? hv)).one_le_extent ht
  have hlt : j < sub.parameterSlots.length := (List.getElem?_eq_some_iff.mp hj).1
  -- by induction on how many of the arguments before this one have been moved
  have kept : ∀ i ≤ j, after i (sub.cellIn base slot) = x → after 0 (sub.cellIn base slot) = x := by
    intro i
    induction i with
    | zero => exact fun _ h => h
    | succ i ih =>
      intro hi hvalue
      refine ih (Nat.le_of_succ_le hi) ?_
      rw [← hvalue]
      by_contra hne
      obtain ⟨⟨u, slot'⟩, hu⟩ : ∃ entry, sub.parameterSlots[i]? = some entry :=
        ⟨_, List.getElem?_eq_getElem (by omega)⟩
      obtain ⟨y, hy⟩ : ∃ y, values[i]? = some y := ⟨_, List.getElem?_eq_getElem (by omega)⟩
      obtain ⟨hu', _, hposition'⟩ := parameter_slot hturtle hu
      have hin := (hreceives i u slot' y (by omega) hu hy).inside _ hne
      have hsame := h.cellIn_unique hv hu' ⟨Int.le_refl _, by omega⟩ hin
      rw [hsame, hposition'] at hposition
      omega
  exact kept j (Nat.le_refl j) ((hreceives j v slot x hlt hj hx).stored hc)

theorem ready_of_headed (h : s.map.Framed sub pointer) (hm : m pointer.toInt = base)
    (hheaded : s.map.AllHeaded (.frame pointer) sub.index Variable.headedInFrame m) :
    sub.Ready pointer base m := by
  refine ⟨hm, fun {slot v} hv hc => ?_⟩
  have hslot := h.laid.toNat_slot hv
  have hv' : sub.declarations[slot.toUInt64.toNat]? = some v := by rw [hslot, hv]
  have ht := Variable.isTurtle_of_ownsStorage (v.ownsStorage_of_headedInFrame hc.headedInFrame)
  obtain ⟨offset, hplace, hoffset⟩ := h.location hv' ht
  obtain ⟨cell, hcell, hstring⟩ :=
    hheaded _ v (declared_eq_ok.mpr ⟨_, h.found, hv'⟩) hc.headedInFrame
  obtain rfl := Region.place_injective (.frame pointer) (Except.ok.inj (hplace.symm.trans hcell))
  rw [hc.2.2, Region.origin, hm, hoffset, hslot] at hstring
  obtain ⟨hpointer, hcapacity, _⟩ := hstring hc.2.1
  exact ⟨hpointer, hcapacity⟩

end MemoryMap.Framed

/-! ## The whole line -/

theorem Region.StoresWithin.cstr_not_mem {region : Region} {lo hi : Int} {code : Line}
    (h : region.StoresWithin lo hi code) : Opcode.cstr ∉ code.opcodes := by
  obtain ⟨is, rfl, h⟩ := h
  rw [Line.opcodes_flatMap_words, List.mem_map]
  rintro ⟨i, hi, hop⟩
  rcases h i hi with hpush | ⟨cell, hwords, _⟩
  · rw [hop] at hpush
    exact absurd hpush (by decide)
  · have hops := congrArg Line.opcodes hwords
    rw [Instruction.words, Line.opcodes_instr, hop] at hops
    cases region with
    | globals => exact absurd hops (by simp [Region.store])
    | frame pointer => exact absurd hops (by simp [Region.store])

theorem Setting.cstr_not_mem_claimFrame (s : Setting) (pointer length : Int64) :
    Opcode.cstr ∉ (s.claimFrame pointer length).opcodes := by
  unfold claimFrame
  split
  · simp
  · simp [Line.opcodes, instr, Word.opcode?]

namespace MemoryMap.Framed

variable {s : Setting} {sub : Subroutine} {pointer : Int64} {base : Int} {m : Memory}

theorem cstr_not_mem_opening (h : s.map.Framed sub pointer) (M : Machine) (length : Int64)
    {zeroed : Bool} {headers : Line} (hheaders : Region.allHeaders (.frame pointer) zeroed
      Variable.headedInFrame 0 sub.declarations = .ok headers) :
    Opcode.cstr ∉ Line.opcodes (s.claimFrame pointer length ++ headers) := by
  rw [Line.opcodes_append, List.mem_append, not_or]
  exact ⟨s.cstr_not_mem_claimFrame pointer length, Region.StoresWithin.cstr_not_mem
    (Region.allHeaders_fills (M := M) Variable.ownsStorage_of_headedInFrame h.laid.sized
      hheaders).stores⟩

theorem strings_at_pointers (h : s.map.Framed sub pointer) (hm : sub.Ready pointer base m)
    {values : List Int} {strings : List (Int × Int)}
    (hstrings : List.Forall₂ (fun entry string => values[sub.position entry.2]? = some string.1 ∧
        string.2 = sub.cellIn base entry.2 + 1)
      (sub.parameterSlots.filter (·.1.Copied)).reverse strings) :
    List.Forall₂ (fun entry string => ∃ cell,
        s.cell? m ⟨sub.index, entry.2.toUInt64⟩ = some cell ∧
        values[sub.position entry.2]? = some string.1 ∧ string.2 = m cell ∧ m cell = cell + 1)
      (sub.parameterSlots.filter (·.1.Copied)).reverse strings := by
  have hentries : ∀ entry ∈ (sub.parameterSlots.filter (·.1.Copied)).reverse,
      sub.declarations[entry.2]? = some entry.1 ∧ entry.1.Copied := by
    intro entry hmem
    rw [List.mem_reverse, List.mem_filter] at hmem
    obtain ⟨j, hj⟩ := List.mem_iff_getElem?.mp hmem.1
    exact ⟨(Subroutine.parameterSlots_getElem?.mp hj).1, of_decide_eq_true hmem.2⟩
  refine ((List.forall₂_and_left _ _).mpr ⟨hentries, hstrings⟩).imp ?_
  rintro ⟨v, slot⟩ string ⟨⟨hv, hc⟩, hsource, htarget⟩
  have hslot := h.laid.toNat_slot hv
  have hv' : sub.declarations[slot.toUInt64.toNat]? = some v := by rw [hslot, hv]
  have ht := Variable.isTurtle_of_ownsStorage (v.ownsStorage_of_headedInFrame hc.headedInFrame)
  have hcell := h.cell?_eq hm.claimed hv' ht
  rw [hslot] at hcell
  have hpointer := (hm.strings hv hc).1
  exact ⟨_, hcell, hsource, htarget.trans hpointer.symm, hpointer⟩

end MemoryMap.Framed

/-- **Arguments reach their own parameters.**  Let a subroutine have a frame that its variables fit
in.  Its first line takes the values of the arguments, which were pushed in the order of the
parameters, off the stack.  A parameter that is one cell, or begins with the pointer of an array,
then holds its value.  For a string that holds its characters itself, the only string that is copied
for it goes from the value to where its own pointer leads, and there are no other copies.  The code
for a parameter stores into its own cells only.  `after j` is memory when `j` arguments are still on
the stack. -/
theorem arguments_reach_parameters {p : Program} (options : Options) {sub : Subroutine}
    {pointer : Int64} (h : (MemoryMap.of p).Framed sub pointer)
    (hturtle : ∀ v ∈ sub.parameters, v.isTurtle = false) :
    let s := Setting.of p options
    ∃ opening received length, s.prologue sub = .ok (opening ++ received) ∧
      s.receiveAll sub.index sub.parameterSlots.reverse = .ok received ∧
      MemoryMap.frameLength sub = .ok length ∧
      ∀ (M : Machine) (values st : List Int) (m m₀ : Memory), M.CopiesStrings →
        values.length = sub.parameters.length →
        M.other .memc [pointer, length] ⟨m, values.reverse ++ st⟩ =
          some ⟨m₀, values.reverse ++ st⟩ →
        ¬(m₀ pointer.toInt ≤ pointer.toInt ∧ pointer.toInt < m₀ pointer.toInt + length.toInt) →
        ∃ after : Nat → Memory,
          M.execute (opening ++ received) ⟨m, values.reverse ++ st⟩ = some ⟨after 0, st⟩ ∧
          M.execute opening ⟨m, values.reverse ++ st⟩
            = some ⟨after values.length, values.reverse ++ st⟩ ∧
          after 0 pointer.toInt = m₀ pointer.toInt ∧
          List.Forall₂ (fun entry string => ∃ cell,
              s.cell? (after 0) ⟨sub.index, entry.2.toUInt64⟩ = some cell ∧
              values[sub.position entry.2]? = some string.1 ∧ string.2 = after 0 cell ∧
              after 0 cell = cell + 1)
            (sub.parameterSlots.filter (·.1.Copied)).reverse
            (M.copied (opening ++ received) ⟨m, values.reverse ++ st⟩) ∧
          ∀ slot v, sub.declarations[slot.toNat]? = some v → v.parameter = true →
            ∃ x cell piece, values[sub.position slot.toNat]? = some x ∧
              s.cell? (after 0) ⟨sub.index, slot⟩ = some cell ∧ (¬v.Copied → after 0 cell = x) ∧
              s.receive ⟨sub.index, slot⟩ v = .ok piece ∧
              M.execute piece ⟨after (sub.position slot.toNat + 1),
                  x :: ((values.take (sub.position slot.toNat)).reverse ++ st)⟩
                = some ⟨after (sub.position slot.toNat),
                  (values.take (sub.position slot.toNat)).reverse ++ st⟩ ∧
              ∀ k, after (sub.position slot.toNat) k ≠ after (sub.position slot.toNat + 1) k →
                s.map.OccupiesLocal sub.index slot (k - m₀ pointer.toInt) := by
  intro s
  have hframe : s.map.Framed sub pointer := h
  have hcount := sub.length_parameterSlots
  obtain ⟨length, hlength, hexact⟩ := h.laid.exists_total (Int.le_refl 0)
  obtain ⟨headers, hheaders⟩ := h.exists_headers s.options.clearLocals
  obtain ⟨received, hreceived⟩ := hframe.exists_receiveAll fun v slot hmem => by
    obtain ⟨j, hj⟩ := List.mem_iff_getElem?.mp (List.mem_reverse.mp hmem)
    obtain ⟨hv, ht, _⟩ := MemoryMap.Framed.parameter_slot hturtle hj
    exact ⟨hv, ht⟩
  refine ⟨s.claimFrame pointer length ++ headers, received, length, ?_, hreceived, hlength, ?_⟩
  · rw [Setting.prologue_eq h.cell hlength hheaders, hreceived]
    rfl
  intro M values st m m₀ hM hvalues hmemc hapart
  obtain ⟨m₁, hopening, hbase, hheaded⟩ := hframe.opening_runs hexact hheaders hmemc hapart
  have hready := hframe.ready_of_headed hbase hheaded
  rw [hexact] at hapart
  obtain ⟨after, strings, hstart, hruns, hstrings, hlast, hreceives⟩ :=
    hframe.receiveAll_runs hM hapart hturtle (hvalues.trans hcount.symm) st (Nat.le_refl _)
      (by rw [List.take_length]; exact hreceived) hready
  rw [List.take_of_length_le (by omega)] at hruns
  rw [List.take_length] at hstrings
  have hcopies := (Machine.Copies.of_runs hopening
    (hframe.cstr_not_mem_opening M length hheaders)).append hruns
  rw [List.nil_append] at hcopies
  refine ⟨after, Machine.execute_eq_some_iff.mpr hcopies.runs, ?_, hlast.claimed, ?_, ?_⟩
  · rw [hvalues, ← hcount, hstart]
    exact Machine.execute_eq_some_iff.mpr hopening
  · rw [hcopies.copied_eq]
    exact hframe.strings_at_pointers hlast hstrings
  · intro slot v hv hparameter
    have hj := Subroutine.parameterSlots_getElem?.mpr ⟨hv, hparameter, rfl⟩
    have hlt : sub.position slot.toNat < sub.parameterSlots.length :=
      (List.getElem?_eq_some_iff.mp hj).1
    obtain ⟨x, hx⟩ : ∃ x, values[sub.position slot.toNat]? = some x :=
      ⟨_, List.getElem?_eq_getElem (by omega)⟩
    have hmoved := hreceives _ v slot.toNat x hlt hj hx
    obtain ⟨piece, hpiece, hrun⟩ := hmoved.runs
    rw [Nat.toUInt64_eq, UInt64.ofNat_toNat] at hpiece
    have ht := (MemoryMap.Framed.parameter_slot hturtle hj).2.1
    refine ⟨x, _, piece, hx, hframe.cell?_eq hlast.claimed hv ht, fun hc => ?_, hpiece,
      Machine.execute_eq_some_iff.mpr hrun, fun k hk => ?_⟩
    · exact hframe.stored_remains hturtle (hvalues.trans hcount.symm) hreceives hj hx hc
    · have hin := hmoved.inside k hk
      unfold Subroutine.cellIn at hin
      exact hframe.occupiesLocal_iff.mpr ⟨v, hv, by omega, by omega⟩

/-- A machine that copies all of a string that fits, and puts frames at 500. -/
def Machine.scribe : Machine :=
  { Machine.bench with
    other := fun op operands t =>
      match op, t.stack with
      | .cstr, target :: source :: st =>
        some ⟨fun k => if target < k ∧ k < target + 2 + t.memory target then
          t.memory (source + (k - target)) else t.memory k, st⟩
      | _, _ => Machine.bench.other op operands t }

theorem Machine.scribe_copiesStrings : Machine.scribe.CopiesStrings :=
  fun _ _ _ _ => ⟨_, rfl, fun _ hk => if_neg hk⟩

theorem arguments_reach_parameters_stock : (MemoryMap.of storeroom).Framed stock 3 ∧
    (∀ v ∈ stock.parameters, v.isTurtle = false) ∧
    ∃ code m, (Setting.of storeroom {}).prologue stock = .ok code ∧
      Machine.scribe.execute code ⟨fun _ => 0, [46, 70, 9]⟩ = some ⟨m, [9]⟩ ∧
      m 509 = 46 ∧ m 500 = 501 ∧
      Machine.scribe.copied code ⟨fun _ => 0, [46, 70, 9]⟩ = [(70, 501)] := by
  have hframed : (MemoryMap.of storeroom).Framed stock 3 := storeroom_regular.framed stock_mem rfl
  have hturtle : ∀ v ∈ stock.parameters, v.isTurtle = false := by decide
  obtain ⟨opening, received, length, hprologue, _, hlength, hruns⟩ :=
    arguments_reach_parameters {} hframed hturtle
  obtain rfl : (23 : Int64) = length := Except.ok.inj hlength
  obtain ⟨after, hexecute, _, hbase, hcopied, hparameters⟩ :=
    hruns .scribe [70, 46] [9] (fun _ => 0) _ Machine.scribe_copiesStrings rfl rfl (by decide)
  -- the reference
  have hsource : (Setting.of storeroom {}).cell? (after 0) ⟨2, 1⟩ = some 509 :=
    MemoryMap.Framed.cell?_eq (s := .of storeroom {}) hframed hbase rfl rfl
  obtain ⟨x, cell, _, hx, hcell, hstored, _⟩ := hparameters 1 _ rfl rfl
  obtain rfl : 46 = x := Option.some.inj hx
  obtain rfl : 509 = cell := Option.some.inj (hsource.symm.trans hcell)
  -- the string
  have hlabel : (Setting.of storeroom {}).cell? (after 0) ⟨2, 0⟩ = some 500 :=
    MemoryMap.Framed.cell?_eq (s := .of storeroom {}) hframed hbase rfl rfl
  generalize hstrings :
    Machine.scribe.copied (opening ++ received) ⟨fun _ => 0, [46, 70, 9]⟩ = strings
  have hcopied : List.Forall₂ _ [(_, 0)] strings := hstrings ▸ hcopied
  obtain ⟨string, rest, ⟨cell, hcell, hvalue, htarget, hpointer⟩, hrest, rfl⟩ :=
    List.forall₂_cons_left_iff.mp hcopied
  obtain rfl : 500 = cell := Option.some.inj (hlabel.symm.trans hcell)
  obtain rfl := List.forall₂_nil_left_iff.mp hrest
  obtain ⟨source, target⟩ := string
  obtain rfl : 70 = source := Option.some.inj hvalue
  obtain rfl : target = 501 := htarget.trans hpointer
  exact ⟨hframed, hturtle, opening ++ received, after 0, hprologue, hexecute,
    hstored (by decide), hpointer, hstrings⟩

/-- A machine that puts each frame on top of its own pointer. -/
def Machine.nook : Machine :=
  { Machine.scribe with
    other := fun op operands t =>
      match op, operands with
      | .memc, [pointer, _] => some ⟨Function.update t.memory pointer.toInt pointer.toInt, t.stack⟩
      | _, _ => Machine.scribe.other op operands t }

def pinch (gap : Variable) : Subroutine where
  index := 1
  name := "pinch"
  declarations := [{ name := "a", ty := .integer, parameter := true }, gap,
    { name := "b", ty := .integer, parameter := true }]

def pinched (gap : Variable) : Program where
  name := "pinched"
  language := .pascal
  declarations := []
  subroutines := [pinch gap]

theorem pinched_map (gap : Variable) : MemoryMap.of (pinched gap) = ⟨pinched gap, [pinch gap]⟩ := by
  have hflat : Subroutine.flattenAll (pinched gap).subroutines = [pinch gap] := rfl
  rw [MemoryMap.of, Program.allSubroutines, hflat, List.mergeSort_singleton]

/-- The values 10 and 20 are passed, and the second parameter does not hold 20. -/
def SecondLost (M : Machine) (gap : Variable) : Prop :=
  ∃ code m cell, (Setting.of (pinched gap) {}).prologue (pinch gap) = .ok code ∧
    M.execute code ⟨fun _ => 0, [20, 10]⟩ = some ⟨m, []⟩ ∧
    (Setting.of (pinched gap) {}).cell? m ⟨1, 2⟩ = some cell ∧ m cell ≠ 20

/-- With bounds that are the wrong way round, or a length that is no word, the local between them
has length -1, so both parameters are in one cell.  In a frame that covers its own pointer, storing
into a parameter moves the frame. -/
theorem pinch_second_lost :
    SecondLost .scribe { name := "gap", ty := .integer, dimensions := [⟨5, 1⟩] } ∧
    SecondLost .scribe { name := "gap", ty := .string, stringLength := 18446744073709551612 } ∧
    SecondLost .nook { name := "gap", ty := .integer } := by
  refine ⟨?_, ?_, ?_⟩
  all_goals
    unfold SecondLost
    rw [Setting.of, pinched_map]
    exact ⟨_, _, _, rfl, rfl, rfl, by decide⟩

end TurtleCode
